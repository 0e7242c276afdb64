import Mathlib.Data.List.Perm.Lattice
import Ross.Core.ActQ
import Ross.Core.Network
import Ross.Lib.Compaction

/-!
# The compaction of the queues of posted messages

`test_q` finishes each completed event once, in the order in which `MPI_Testsome` reports them, and
collapses the two lists of the queue together: the other events stay with their requests, in
order.
-/

namespace Ross

variable {E Req σ ε : Type}

theorem map_range_eq_arraySlice {α : Type} (a : Nat → α) (n : Nat) :
    (List.range n).map a = arraySlice a 0 n := by
  unfold arraySlice
  rw [List.range_eq_range']

/-! ## What `MPI_Testsome` reports -/

/-- The indices of the completed requests, in the order of the report. -/
def Testsome.completed (done : Testsome Req) : List Nat :=
  (List.range done.ready.toNat).map done.idxList

/-- A report on the requests of a queue: different indices below `cur`, while the other requests
are as before. -/
structure Testsome.Reports (done : Testsome Req) (q : ActQ E Req) : Prop where
  success : done.success = true
  nodup : done.completed.Nodup
  below : ∀ n ∈ done.completed, n < q.cur
  kept : ∀ n < q.cur, n ∉ done.completed → done.reqList n = q.reqList n

theorem Testsome.length_completed (done : Testsome Req) :
    done.completed.length = done.ready.toNat := by
  unfold completed
  rw [List.length_map, List.length_range]

/-- As many indices are left as the report leaves out. -/
theorem length_filter_not_mem {l : List Nat} {n : Nat} (hnodup : l.Nodup) (hl : ∀ i ∈ l, i < n) :
    ((List.range n).filter (· ∉ l)).length = n - l.length := by
  have hperm : ((List.range n).filter (· ∈ l)).Perm l := by
    apply (List.perm_ext_iff_of_nodup (List.nodup_range.filter _) hnodup).mpr
    intro i
    rw [List.mem_filter, List.mem_range, decide_eq_true_eq]
    exact and_iff_right_of_imp (hl i)
  have hsum := List.length_eq_length_filter_add (l := List.range n) fun i => decide (i ∈ l)
  rw [List.length_range, hperm.length_eq] at hsum
  have hnot : (List.range n).filter (· ∉ l) =
      (List.range n).filter fun i => !decide (i ∈ l) := by
    simp only [decide_not]
  rw [hnot]
  omega

theorem filter_not_mem_nil (l : List Nat) : l.filter (· ∉ ([] : List Nat)) = l := by simp

namespace ActQ

/-- The event and the request at `i`. -/
def slot (q : ActQ E Req) (i : Nat) : Option E × Req := (q.eventList i, q.reqList i)

/-! ## The completed events -/

/-- The queue without the events at the indices `l`. -/
def clearAll (q : ActQ E Req) (l : List Nat) : ActQ E Req := l.foldl clear q

theorem clearAll_spec (q : ActQ E Req) (l : List Nat) :
    (q.clearAll l).cur = q.cur ∧ (q.clearAll l).reqList = q.reqList ∧
      ∀ i, (q.clearAll l).eventList i = if i ∈ l then none else q.eventList i := by
  induction l generalizing q with
  | nil => exact ⟨rfl, rfl, fun i => (if_neg List.not_mem_nil).symm⟩
  | cons n l ih =>
      obtain ⟨hcur, hreq, hev⟩ := ih (q.clear n)
      refine ⟨hcur, hreq, fun i => ?_⟩
      show ((q.clear n).clearAll l).eventList i = _
      rw [hev i]
      by_cases hl : i ∈ l
      · rw [if_pos hl, if_pos (List.mem_cons_of_mem n hl)]
      · by_cases hin : i = n
        · rw [if_neg hl, hin, if_pos List.mem_cons_self]
          exact Function.update_self _ _ _
        · have hcons : i ∉ n :: l := by
            rw [List.mem_cons, not_or]
            exact ⟨hin, hl⟩
          rw [if_neg hl, if_neg hcons]
          exact Function.update_of_ne hin _ _

/-- The loop finishes the events at the indices of the report, one after the other, unless `finish`
stops. -/
theorem finishLoop_eq (finish : E → σ → Except ε σ) (me : σ) {idxList : Nat → Nat} {ev : Nat → E}
    {turns i : Nat} {q : ActQ E Req} (hnodup : (arraySlice idxList i turns).Nodup)
    (hev : ∀ n ∈ arraySlice idxList i turns, q.eventList n = some (ev n)) :
    (∀ me', ((arraySlice idxList i turns).map ev).foldlM (fun me e => finish e me) me = .ok me' →
      finishLoop finish idxList turns i q me =
        .ok (q.clearAll (arraySlice idxList i turns), me')) ∧
    ∀ stop, ((arraySlice idxList i turns).map ev).foldlM (fun me e => finish e me) me =
        .error stop →
      finishLoop finish idxList turns i q me = .error (.finish stop) := by
  induction turns generalizing i q me with
  | zero =>
      refine ⟨fun me' h => ?_, nofun⟩
      rw [← Except.ok.inj h]
      rfl
  | succ turns ih =>
      rw [arraySlice_succ] at hnodup hev
      obtain ⟨hnew, hrest⟩ := List.nodup_cons.mp hnodup
      have hfirst := hev (idxList i) List.mem_cons_self
      -- The events still to come are not cleared.
      have hnext : ∀ n ∈ arraySlice idxList (i + 1) turns,
          (q.clear (idxList i)).eventList n = some (ev n) := by
        intro n hn
        have hne : n ≠ idxList i := fun h => hnew (h ▸ hn)
        rw [← hev n (List.mem_cons_of_mem _ hn)]
        exact Function.update_of_ne hne _ _
      rw [arraySlice_succ, List.map_cons, List.foldlM_cons]
      unfold finishLoop
      dsimp only
      rw [hfirst]
      dsimp only
      cases hfin : finish (ev (idxList i)) me with
      | error stop =>
          refine ⟨nofun, fun stop' h => ?_⟩
          rw [← Except.error.inj h]
      | ok me₁ => exact ih me₁ hrest hnext

/-! ## The collapse -/

theorem slot_moveSlot (q : ActQ E Req) (i n : Nat) :
    (q.moveSlot i n).slot = Function.update q.slot n (q.slot i) := by
  funext j
  show (Function.update q.eventList n (q.eventList i) j,
    Function.update q.reqList n (q.reqList i) j) = Function.update q.slot n (q.slot i) j
  by_cases hj : j = n
  · rw [hj, Function.update_self, Function.update_self, Function.update_self]
    rfl
  · rw [Function.update_of_ne hj, Function.update_of_ne hj, Function.update_of_ne hj]
    rfl

/-- The two lists are collapsed as one array of pairs. -/
theorem collapseLoop_slot (turns i n : Nat) (q : ActQ E Req) :
    (collapseLoop turns i n q).slot = compactLoop (fun s => s.1.isSome) turns i n q.slot ∧
      (collapseLoop turns i n q).cur = q.cur := by
  induction turns generalizing i n q with
  | zero => exact ⟨rfl, rfl⟩
  | succ turns ih =>
      unfold collapseLoop compactLoop
      by_cases hsome : (q.eventList i).isSome = true
      · have hslot : (q.slot i).1.isSome = true := hsome
        rw [if_pos hsome, if_pos hslot]
        by_cases hin : i ≠ n
        · rw [if_pos hin, if_pos hin, ← slot_moveSlot]
          exact ih (i + 1) (n + 1) (q.moveSlot i n)
        · rw [if_neg hin, if_neg hin]
          exact ih (i + 1) (n + 1) q
      · have hslot : ¬ (q.slot i).1.isSome = true := hsome
        rw [if_neg hsome, if_neg hslot]
        exact ih (i + 1) n q

/-- The queue with cleared slots is collapsed to its other slots. -/
theorem collapse_cleared {q : ActQ E Req} {l : List Nat}
    (hactive : ∀ i < q.cur, (q.eventList i).isSome = true) (hnodup : l.Nodup)
    (hl : ∀ i ∈ l, i < q.cur) :
    (List.range (q.cur - l.length)).map (collapseLoop q.cur 0 0 (q.clearAll l)).slot =
      ((List.range q.cur).filter (· ∉ l)).map q.slot := by
  obtain ⟨-, hreq, hev⟩ := q.clearAll_spec l
  have hslot : ∀ i, i ∉ l → (q.clearAll l).slot i = q.slot i := by
    intro i hi
    unfold slot
    rw [hev, if_neg hi, hreq]
  -- The slots that are kept are the others of those below `cur`.
  have hkept : (arraySlice (q.clearAll l).slot 0 q.cur).filter (fun s => s.1.isSome) =
      ((List.range q.cur).filter (· ∉ l)).map q.slot := by
    rw [← map_range_eq_arraySlice, List.filter_map]
    have hfilter : (List.range q.cur).filter ((fun s => s.1.isSome) ∘ (q.clearAll l).slot) =
        (List.range q.cur).filter (· ∉ l) := by
      apply List.filter_congr
      intro i hi
      show ((q.clearAll l).eventList i).isSome = decide (i ∉ l)
      rw [hev]
      by_cases hil : i ∈ l
      · rw [if_pos hil, decide_eq_false (not_not.mpr hil)]
        rfl
      · rw [if_neg hil, decide_eq_true hil, hactive i (List.mem_range.mp hi)]
    rw [hfilter]
    apply List.map_congr_left
    intro i hi
    exact hslot i (of_decide_eq_true (List.mem_filter.mp hi).2)
  have hcompact := (compactLoop_slice (fun s : Option E × Req => s.1.isSome) q.cur
    (q.clearAll l).slot (Nat.zero_le 0)).2
  rw [hkept, List.length_map, length_filter_not_mem hnodup hl] at hcompact
  rw [map_range_eq_arraySlice, (collapseLoop_slot _ _ _ _).1]
  exact hcompact

/-! ## `test_q` -/

/-- The queue when `MPI_Testsome` has returned. -/
def tested (q : ActQ E Req) (done : Testsome Req) : ActQ E Req := { q with reqList := done.reqList }

/-- The other slots are as before the report. -/
theorem tested_slots {q : ActQ E Req} {done : Testsome Req} (hdone : done.Reports q) :
    ((List.range q.cur).filter (· ∉ done.completed)).map (q.tested done).slot =
      ((List.range q.cur).filter (· ∉ done.completed)).map q.slot := by
  apply List.map_congr_left
  intro i hi
  obtain ⟨hcur, hnot⟩ := List.mem_filter.mp hi
  exact congrArg (Prod.mk _)
    (hdone.kept i (List.mem_range.mp hcur) (of_decide_eq_true hnot))

/-- A report of no completed request leaves the queue as it is. -/
theorem testQ_nothing (finish : E → σ → Except ε σ) {q : ActQ E Req} {done : Testsome Req}
    (me : σ) (hdone : done.Reports q) (hnone : done.completed = []) :
    ∃ q', q.testQ finish done me = .ok (false, q', me) ∧ q'.cur = q.cur ∧
      (List.range q.cur).map q'.slot = (List.range q.cur).map q.slot := by
  have hready : done.ready < 1 := by
    have hlen := done.length_completed
    rw [hnone, List.length_nil] at hlen
    omega
  unfold testQ
  by_cases hcur : q.cur = 0
  · rw [if_pos hcur]
    exact ⟨q, rfl, rfl, rfl⟩
  · have hsuccess : ¬ ¬ done.success = true := not_not.mpr hdone.success
    rw [if_neg hcur, if_neg hsuccess]
    dsimp only
    rw [if_pos hready]
    refine ⟨q.tested done, rfl, rfl, ?_⟩
    have hslots := tested_slots hdone
    rw [hnone, filter_not_mem_nil] at hslots
    exact hslots

/-- A report of completed requests. -/
theorem testQ_some {finish : E → σ → Except ε σ} {q : ActQ E Req} {done : Testsome Req} (me : σ)
    (hdone : done.Reports q) (hsome : done.completed ≠ []) :
    q.testQ finish done me =
      match finishLoop finish done.idxList done.ready.toNat 0 (q.tested done) me with
      | .error stop => .error stop
      | .ok (q, me) =>
          .ok (true, { collapseLoop q.cur 0 0 q with
            cur := (collapseLoop q.cur 0 0 q).cur - done.ready.toNat }, me) := by
  obtain ⟨n, hn⟩ := List.exists_mem_of_ne_nil _ hsome
  have hcur : q.cur ≠ 0 := by
    have := hdone.below n hn
    omega
  have hready : ¬ done.ready < 1 := by
    have hpos := List.length_pos_of_mem hn
    rw [done.length_completed] at hpos
    omega
  have hsuccess : ¬ ¬ done.success = true := not_not.mpr hdone.success
  unfold testQ
  rw [if_neg hcur, if_neg hsuccess]
  dsimp only
  rw [if_neg hready]
  rfl

/-- `test_q` finishes the events of the completed requests, once each and in the order of the
report, and leaves the other events with their requests, in order, in the first slots of the
queue. -/
theorem testQ_compacts (finish : E → σ → Except ε σ) (q : ActQ E Req) (done : Testsome Req) (me : σ)
    (ev : Nat → E) (hactive : ∀ i < q.cur, q.eventList i = some (ev i)) (hdone : done.Reports q) :
    (∀ me', (done.completed.map ev).foldlM (fun me e => finish e me) me = .ok me' →
      ∃ q', q.testQ finish done me = .ok (decide (done.completed ≠ []), q', me') ∧
        q'.cur = q.cur - done.completed.length ∧
        (List.range q'.cur).map q'.slot =
          ((List.range q.cur).filter (· ∉ done.completed)).map fun i =>
            (some (ev i), q.reqList i)) ∧
    ∀ stop, (done.completed.map ev).foldlM (fun me e => finish e me) me = .error stop →
      q.testQ finish done me = .error (.finish stop) := by
  have hslots : ((List.range q.cur).filter (· ∉ done.completed)).map q.slot =
      ((List.range q.cur).filter (· ∉ done.completed)).map fun i =>
        (some (ev i), q.reqList i) := by
    apply List.map_congr_left
    intro i hi
    have hcur := List.mem_range.mp (List.mem_filter.mp hi).1
    unfold slot
    rw [hactive i hcur]
  rw [← hslots]
  by_cases hnone : done.completed = []
  · obtain ⟨q', htest, hcur, hkept⟩ := testQ_nothing finish me hdone hnone
    rw [hnone]
    refine ⟨fun me' h => ⟨q', ?_, hcur, ?_⟩, nofun⟩
    · rw [← Except.ok.inj h]
      exact htest
    · rw [hcur, hkept, filter_not_mem_nil]
  · have hslice : done.completed = arraySlice done.idxList 0 done.ready.toNat :=
      map_range_eq_arraySlice _ _
    have hev : ∀ n ∈ done.completed, (q.tested done).eventList n = some (ev n) :=
      fun n hn => hactive n (hdone.below n hn)
    have hnodup := hdone.nodup
    rw [hslice] at hev hnodup
    obtain ⟨hok, herror⟩ := finishLoop_eq finish me hnodup hev
    rw [← hslice] at hok herror
    rw [testQ_some me hdone hnone, decide_eq_true hnone]
    refine ⟨fun me' h => ?_, fun stop h => ?_⟩
    · rw [hok me' h]
      have hcur : (collapseLoop q.cur 0 0 ((q.tested done).clearAll done.completed)).cur -
          done.ready.toNat = q.cur - done.completed.length := by
        rw [(collapseLoop_slot _ _ _ _).2, ((q.tested done).clearAll_spec _).1,
          done.length_completed]
        rfl
      have hcleared : ((q.tested done).clearAll done.completed).cur = q.cur :=
        ((q.tested done).clearAll_spec _).1
      have hactive' : ∀ i < (q.tested done).cur, ((q.tested done).eventList i).isSome = true := by
        intro i hi
        show (q.eventList i).isSome = true
        rw [hactive i hi]
        rfl
      have hcollapse := collapse_cleared hactive' hdone.nodup hdone.below
      dsimp only
      rw [hcleared]
      refine ⟨_, rfl, hcur, ?_⟩
      rw [← tested_slots hdone]
      dsimp only
      rw [hcur]
      exact hcollapse
    · rw [herror stop h]

/-- A queue of three events, of which the third and the first are completed. -/
def threePosted : ActQ Nat Nat := ⟨"MPI send queue", fun i => some (10 + i), fun i => i, 3⟩

/-- The report, with the value 9 for a request that is `MPI_REQUEST_NULL`. -/
def twoCompleted : Testsome Nat :=
  ⟨true, 2, fun i => if i = 0 then 2 else 0, fun i => if i = 1 then 1 else 9⟩

theorem testQ_compacts_two :
    ∃ q', threePosted.testQ (fun e (me : List Nat) => (.ok (me ++ [e]) : Except Unit (List Nat)))
        twoCompleted [] = .ok (true, q', [12, 10]) ∧
      q'.cur = 1 ∧ (List.range q'.cur).map q'.slot = [(some 11, 1)] := by
  have hdone : twoCompleted.Reports threePosted := ⟨rfl, by decide, by decide, by decide⟩
  obtain ⟨hok, -⟩ := testQ_compacts
    (fun e (me : List Nat) => (.ok (me ++ [e]) : Except Unit (List Nat))) threePosted
    twoCompleted [] (fun i => 10 + i) (fun i _ => rfl) hdone
  exact hok [12, 10] rfl

/-! ## The events in flight -/

/-- The events of a queue. -/
def Holds (q : ActQ E Req) (l : List E) : Prop :=
  (List.range q.cur).map q.eventList = l.map some

theorem Holds.length_eq {q : ActQ E Req} {l : List E} (h : q.Holds l) : q.cur = l.length := by
  have hlen := congrArg List.length h
  rw [List.length_map, List.length_map, List.length_range] at hlen
  exact hlen

/-- A posted event is the last one. -/
theorem Holds.post {q : ActQ E Req} {l : List E} (h : q.Holds l) (e : E) (req : Req) :
    (q.post e req).Holds (l ++ [e]) := by
  have hkept : (List.range q.cur).map (Function.update q.eventList q.cur (some e)) =
      (List.range q.cur).map q.eventList := by
    apply List.map_congr_left
    intro i hi
    exact Function.update_of_ne (List.mem_range.mp hi).ne _ _
  show (List.range (q.cur + 1)).map (Function.update q.eventList q.cur (some e)) = _
  rw [List.range_succ, List.map_append, hkept, List.map_singleton, Function.update_self,
    List.map_append, h]
  rfl

/-- The events as a function of their index. -/
theorem Holds.exists_ev [Nonempty E] {q : ActQ E Req} {l : List E} (h : q.Holds l) :
    ∃ ev : Nat → E, l = (List.range q.cur).map ev := by
  obtain ⟨other⟩ := ‹Nonempty E›
  refine ⟨fun i => l[i]?.getD other, ?_⟩
  rw [h.length_eq]
  apply List.ext_getElem
  · rw [List.length_map, List.length_range]
  · intro i hi _
    rw [List.getElem_map, List.getElem_range, List.getElem?_eq_getElem hi, Option.getD_some]

theorem Holds.eventList {q : ActQ E Req} {ev : Nat → E}
    (h : q.Holds ((List.range q.cur).map ev)) : ∀ i < q.cur, q.eventList i = some (ev i) := by
  intro i hi
  unfold Holds at h
  rw [List.map_map] at h
  exact List.map_inj_left.mp h i (List.mem_range.mpr hi)

/-- The completed events leave the queue. -/
theorem testQ_holds [DecidableEq E] {finish : E → σ → Except ε σ} {q : ActQ E Req}
    {done : Testsome Req} {me : σ} {ev : Nat → E} (h : q.Holds ((List.range q.cur).map ev))
    (hnodup : ((List.range q.cur).map ev).Nodup) (hdone : done.Reports q) {b : Bool}
    {q' : ActQ E Req} {me' : σ} (htest : q.testQ finish done me = .ok (b, q', me')) :
    (done.completed.map ev).foldlM (fun me e => finish e me) me = .ok me' ∧
      q'.Holds ((done.completed.map ev).foldl List.erase ((List.range q.cur).map ev)) := by
  obtain ⟨hok, herror⟩ := testQ_compacts finish q done me ev h.eventList hdone
  cases hfin : (done.completed.map ev).foldlM (fun me e => finish e me) me with
  | error stop =>
      rw [herror stop hfin] at htest
      cases htest
  | ok me₁ =>
      obtain ⟨q₁, htest', -, hslots⟩ := hok me₁ hfin
      rw [htest'] at htest
      cases htest
      refine ⟨rfl, ?_⟩
      -- An event is completed if its index is, as the events are different.
      have hmem : ∀ i ∈ List.range q.cur, ev i ∈ done.completed.map ev ↔ i ∈ done.completed := by
        intro i hi
        rw [List.mem_map]
        constructor
        · intro ⟨j, hj, hij⟩
          have hjcur := List.mem_range.mpr (hdone.below j hj)
          rw [← List.inj_on_of_nodup_map hnodup hjcur hi hij]
          exact hj
        · intro hi'
          exact ⟨i, hi', rfl⟩
      rw [← List.diff_eq_foldl, hnodup.sdiff_eq_filter, List.filter_map]
      have hfilter :
          (List.range q.cur).filter ((fun e => decide (e ∉ done.completed.map ev)) ∘ ev) =
          (List.range q.cur).filter (· ∉ done.completed) := by
        apply List.filter_congr
        intro i hi
        exact decide_eq_decide.mpr (not_congr (hmem i hi))
      rw [hfilter]
      have hevents := congrArg (List.map Prod.fst) hslots
      rw [List.map_map, List.map_map] at hevents
      unfold Holds
      rw [List.map_map]
      exact hevents

end ActQ

/-! ## The sends and the receives of a processor -/

namespace Pe

variable {T S M R : Type} [TwStime T] {m : SimModel T S M R} {s s' : Pe T S M R}

/-- A started send is posted. -/
theorem isend_holds {q : ActQ (TwEvent T) Req} {e : TwEvent T} (req : Req)
    (hq : q.Holds (s.queue .postedSends)) :
    (q.post e req).Holds ((s.isend m e).queue .postedSends) := by
  have houtq : Pool.remove s.queue .outq e .postedSends = s.queue .postedSends :=
    Pool.remove_of_ne nofun
  have hposted : (s.isend m e).queue .postedSends = s.queue .postedSends ++ [e] := by
    show Pool.snoc (Pool.remove s.queue .outq e) .postedSends e .postedSends = _
    rw [Pool.snoc_self, houtq]
  rw [hposted]
  exact hq.post e req

/-- A finished send leaves `posted_sends`. -/
theorem sendFinish_postedSends {e : TwEvent T} (h : s.sendFinish m e = .ok s') :
    s'.queue .postedSends = (s.queue .postedSends).erase e := by
  have hself : Pool.remove s.queue .postedSends e .postedSends =
      (s.queue .postedSends).erase e := Pool.remove_self
  have houtq : Pool.snoc (Pool.remove s.queue .postedSends e) .outq e .postedSends =
      Pool.remove s.queue .postedSends e .postedSends := Pool.snoc_of_ne nofun
  have hsevent : Pool.cons (Pool.remove s.queue .postedSends e) .seventQ e .postedSends =
      Pool.remove s.queue .postedSends e .postedSends := Pool.cons_of_ne nofun
  rcases sendFinish_ok h with ⟨-, -, rfl⟩ | ⟨-, -, -, rfl⟩ | ⟨-, -, -, rfl⟩ | ⟨-, rfl⟩
  · exact houtq.trans hself
  · exact hself
  · exact hsevent.trans hself
  · exact hself

theorem sendFinish_all {l : List (TwEvent T)}
    (h : l.foldlM (fun s e => s.sendFinish m e) s = .ok s') :
    s'.queue .postedSends = l.foldl List.erase (s.queue .postedSends) := by
  induction l generalizing s with
  | nil =>
      rw [← Except.ok.inj h]
      rfl
  | cons e l ih =>
      rw [List.foldlM_cons] at h
      cases hfin : s.sendFinish m e with
      | error stop =>
          rw [hfin] at h
          cases h
      | ok s₁ =>
          rw [hfin] at h
          rw [ih h, sendFinish_postedSends hfin, List.foldl_cons]

/-- `test_q` for the sends keeps the queue of the network and the events that the processor has in
flight in step, when the processor finishes the sends one at a time. -/
theorem testQ_sends {q q' : ActQ (TwEvent T) Req} {done : Testsome Req} {b : Bool}
    (hq : q.Holds (s.queue .postedSends)) (hnodup : (s.queue .postedSends).Nodup)
    (hdone : done.Reports q)
    (htest : q.testQ (fun e (s : Pe T S M R) => s.sendFinish m e) done s = .ok (b, q', s')) :
    q'.Holds (s'.queue .postedSends) := by
  have : Nonempty (TwEvent T) := ⟨⟨0, maxSig, 0, 0, 0, 0⟩⟩
  obtain ⟨ev, hev⟩ := hq.exists_ev
  rw [hev] at hq hnodup
  obtain ⟨hfinish, hholds⟩ := ActQ.testQ_holds hq hnodup hdone htest
  rw [sendFinish_all hfinish, hev]
  exact hholds

/-- A finished receive leaves `posted_recvs`. -/
theorem recvFinish_postedRecvs {src : Nat} {w : WireMsg T M}
    (h : s.recvFinish m src w = .ok s') : s'.postedRecvs = s.postedRecvs - 1 := by
  obtain ⟨-, ⟨-, c, -, rfl⟩ | ⟨-, -, ⟨-, -, rfl⟩ | ⟨-, rfl⟩⟩⟩ := recvFinish_ok h
  · rfl
  · rfl
  · rfl

theorem recvFinish_all {content : E → Nat × WireMsg T M} {l : List E}
    (h : l.foldlM (fun s e => s.recvFinish m (content e).1 (content e).2) s = .ok s') :
    s'.postedRecvs = s.postedRecvs - l.length := by
  induction l generalizing s with
  | nil =>
      rw [← Except.ok.inj h]
      rfl
  | cons e l ih =>
      rw [List.foldlM_cons] at h
      cases hfin : s.recvFinish m (content e).1 (content e).2 with
      | error stop =>
          rw [hfin] at h
          cases h
      | ok s₁ =>
          rw [hfin] at h
          rw [ih h, recvFinish_postedRecvs hfin, List.length_cons]
          omega

/-- `test_q` for the receives: as many buffers stay posted as the processor counts.  The messages
that have arrived in the buffers are `content`. -/
theorem testQ_recvs {q q' : ActQ E Req} {done : Testsome Req} {b : Bool} {ev : Nat → E}
    {content : E → Nat × WireMsg T M} (hactive : ∀ i < q.cur, q.eventList i = some (ev i))
    (hq : q.cur = s.postedRecvs) (hdone : done.Reports q)
    (htest : q.testQ (fun e (s : Pe T S M R) => s.recvFinish m (content e).1 (content e).2) done s =
      .ok (b, q', s')) :
    q'.cur = s'.postedRecvs := by
  obtain ⟨hok, herror⟩ := ActQ.testQ_compacts
    (fun e (s : Pe T S M R) => s.recvFinish m (content e).1 (content e).2) q done s ev hactive hdone
  cases hfin : (done.completed.map ev).foldlM
      (fun s e => s.recvFinish m (content e).1 (content e).2) s with
  | error stop =>
      rw [herror stop hfin] at htest
      cases htest
  | ok s₁ =>
      obtain ⟨q₁, htest', hcur, -⟩ := hok s₁ hfin
      rw [htest'] at htest
      cases htest
      rw [hcur, recvFinish_all hfin, hq, List.length_map]

end Pe

end Ross

import Ross.Core.AnalysisLp

/-!
# The list of samples

The cells in front of `model_samples_current` hold the events that are not committed, the
oldest first.  An event takes the current cell, and a cell that is undone or committed, at
either end of these, goes behind the last one.
-/

namespace Ross

open DoublyLinked Transition

variable {T B : Type} [TwStime T] {c : AnalysisSetup}

namespace AnalysisState

/-! ## The list that is allocated -/

/-- The links of the cells after some turns of the loop. -/
def initLinks (k : Nat) : Links Nat where
  prev i := if 0 < i ∧ i ≤ k then some (i - 1) else none
  next i := if i < k then some (i + 1) else none

theorem initLinks_prev (k i : Nat) :
    (initLinks k).prev i = if 0 < i ∧ i ≤ k then some (i - 1) else none := rfl

theorem initLinks_next (k i : Nat) :
    (initLinks k).next i = if i < k then some (i + 1) else none := rfl

theorem initLinks_zero : initLinks 0 = ⟨fun _ => none, fun _ => none⟩ := by
  apply Links.ext
  · funext i
    rw [initLinks_prev, if_neg (by omega)]
  · funext i
    rw [initLinks_next, if_neg (Nat.not_lt_zero i)]

theorem initLinks_succ (k : Nat) :
    ((initLinks k).setNext k (some (k + 1))).setPrev (k + 1) (some k) = initLinks (k + 1) := by
  apply Links.ext
  · funext i
    simp only [initLinks, Links.setPrev, Links.setNext, Function.update_apply]
    grind
  · funext i
    simp only [initLinks, Links.setPrev, Links.setNext, Function.update_apply]
    grind

theorem initLinks_one :
    (((initLinks 0).setPrev 0 none).setNext 0 (some 1)).setPrev 1 (some 0) = initLinks 1 := by
  have hprev : (initLinks 0).setPrev 0 none = initLinks 0 := by
    apply Links.ext
    · rw [initLinks_zero]
      exact Function.update_eq_self 0 _
    · rfl
  rw [hprev]
  exact initLinks_succ 0

theorem initTurns (n : Nat) (blank : Nat → B) {k : Nat} (hk : k < n) :
    (List.range k).foldl (initTurn n) (allocated (T := T) blank) =
      { allocated blank with links := initLinks k } := by
  induction k with
  | zero =>
      rw [initLinks_zero]
      rfl
  | succ k ih =>
      rw [List.range_succ, List.foldl_append, ih (by omega), List.foldl_cons, List.foldl_nil]
      have hlast : k ≠ n - 1 := by omega
      unfold initTurn
      by_cases hk0 : k = 0
      · rw [if_pos hk0, hk0, ← initLinks_one]
      · rw [if_neg hk0, if_neg hlast, initLinks_succ k]

theorem analysisInit_eq {n : Nat} (hn : 2 ≤ n) (blank : Nat → B) :
    analysisInit (T := T) n blank =
      { allocated blank with links := initLinks (n - 1), modelSamplesTail := some (n - 1) } := by
  obtain ⟨m, rfl⟩ := Nat.exists_eq_add_of_le' hn
  have hm : m + 2 - 1 = m + 1 := rfl
  have hlinks : (initLinks (m + 1)).setNext (m + 1) none = initLinks (m + 1) := by
    apply Links.ext
    · rfl
    · have hnone : none = (initLinks (m + 1)).next (m + 1) := by
        rw [initLinks_next, if_neg (Nat.lt_irrefl _)]
      exact Function.update_eq_self_iff.mpr hnone
  unfold analysisInit
  rw [List.range_succ, List.foldl_append, initTurns (m + 2) blank (Nat.lt_succ_self _),
    List.foldl_cons, List.foldl_nil, hm]
  unfold initTurn
  rw [if_neg (Nat.succ_ne_zero m), if_pos hm.symm, hlinks]

theorem segment_range' {σ : Links Nat} {a m : Nat} {p : Option Nat} (hp : σ.prev a = p)
    (hmid : ∀ i, a ≤ i → i < a + m → σ.next i = some (i + 1) ∧ σ.prev (i + 1) = some i)
    (hlast : σ.next (a + m) = none) : Segment σ p (List.range' a (m + 1)) none := by
  induction m generalizing a p with
  | zero => exact ⟨hp, hlast, trivial⟩
  | succ m ih =>
      obtain ⟨hnext, hprev⟩ := hmid a (Nat.le_refl a) (by omega)
      rw [List.range'_succ]
      refine ⟨hp, hnext, ih hprev ?_ ?_⟩
      · intro i hi hi'
        exact hmid i (by omega) (by omega)
      · rw [← hlast]
        congr 1
        omega

theorem represents_init {n : Nat} (hn : 2 ≤ n) (blank : Nat → B) :
    Represents (analysisInit (T := T) n blank).links
      ⟨(analysisInit (T := T) n blank).modelSamplesHead,
        (analysisInit (T := T) n blank).modelSamplesTail, n⟩ (List.range n) := by
  obtain ⟨m, rfl⟩ := Nat.exists_eq_add_of_le' hn
  rw [analysisInit_eq hn]
  refine ⟨?_, ?_, List.length_range.symm, List.nodup_range, ?_⟩
  · rw [List.range_succ_eq_map]
    rfl
  · rw [List.range_succ, List.getLast?_concat]
    rfl
  · rw [List.range_eq_range']
    apply segment_range'
    · rw [initLinks_prev, if_neg (by omega)]
    · intro i _ hi
      rw [initLinks_next, initLinks_prev, if_pos (by omega), if_pos (by omega)]
      exact ⟨rfl, rfl⟩
    · rw [initLinks_next, if_neg (by omega)]

/-! ## One call -/

variable {s : AnalysisState T B} {l₁ l₂ : List Nat} {k n : Nat}

theorem findSample_here {timestamp : Nat → T} {ts : T} (h : timestamp k = ts)
    (follow : Nat → Option Nat) {turns : Nat} (hturns : 0 < turns) :
    findSample timestamp follow ts turns (some k) = .ok (some k) := by
  obtain ⟨m, rfl⟩ := Nat.exists_eq_succ_of_ne_zero hturns.ne'
  exact if_pos h

theorem analysisEventRc_found {current : Nat} (hcur : s.modelSamplesCurrent = some current)
    {turns : Nat} {ts : T}
    (hfind : findSample s.timestamp s.links.prev ts turns (s.links.prev current) = .ok (some k))
    (numLps : Nat) (sampleRevent : Nat → B → B) :
    analysisEventRc numLps turns ts sampleRevent s =
      (freeSample k { s with
        lpData := Function.update s.lpData k (forLps numLps sampleRevent (s.lpData k)) }).map
        fun s' => ((List.range numLps).map fun j => (j, s.lpData k j), s') := by
  simp only [analysisEventRc, hcur, hfind]

theorem analysisCommit_found {turns : Nat} {ts : T}
    (hfind : findSample s.timestamp s.links.next ts turns s.modelSamplesHead = .ok (some k))
    (numLps : Nat) :
    analysisCommit numLps turns ts s =
      (freeSample k s).map fun s' =>
         ((List.range numLps).map fun j => ⟨j, ts, s.lpData k j⟩, s') := by
  simp only [analysisCommit, hfind]

theorem freeSample_eq {t : Nat} (ht : s.modelSamplesTail = some t) (htk : t ≠ k) :
    freeSample k s = .ok
      { links := ((((s.links.skipNext k).skipPrev k).setPrev k (some t)).setNext t
          (some k)).setNext k none
        timestamp := Function.update s.timestamp k 0
        lpData := s.lpData
        modelSamplesHead :=
          if s.modelSamplesHead = some k then ((s.links.skipNext k).skipPrev k).next k
          else s.modelSamplesHead
        modelSamplesCurrent := s.modelSamplesCurrent
        modelSamplesTail := some k } := by
  have hne : some t ≠ some k := fun heq => htk (Option.some.inj heq)
  by_cases hhead : s.modelSamplesHead = some k
  · simp only [freeSample, hhead, if_true, ht, ne_eq, hne, not_false_iff]
  · simp only [freeSample, hhead, if_false, if_true, ht, ne_eq, hne, not_false_iff]

/-- A cell that is not the last one goes to the end of the list. -/
theorem freeSample_ok
    (h : Represents s.links ⟨s.modelSamplesHead, s.modelSamplesTail, n⟩ (l₁ ++ k :: l₂))
    (hl : l₂ ≠ []) :
    ∃ s', freeSample k s = .ok s' ∧
      Represents s'.links ⟨s'.modelSamplesHead, s'.modelSamplesTail, n⟩ (l₁ ++ l₂ ++ [k]) ∧
      s'.timestamp = Function.update s.timestamp k 0 ∧ s'.lpData = s.lpData ∧
      s'.modelSamplesCurrent = s.modelSamplesCurrent := by
  obtain ⟨b, l, rfl⟩ := List.exists_cons_of_ne_nil hl
  obtain ⟨hk, hnd⟩ : k ∉ l₁ ++ b :: l ∧ (l₁ ++ b :: l).Nodup :=
    List.nodup_cons.mp (List.perm_middle.nodup_iff.mp h.nodup)
  obtain ⟨t, ht⟩ : ∃ t, (b :: l).getLast? = some t := ⟨_, List.getLast?_eq_some_getLast hl⟩
  have hlast : (l₁ ++ b :: l).getLast? = some t := by
    rw [List.getLast?_append, ht]
    rfl
  have htail : s.modelSamplesTail = some t := by
    have htail := h.tail
    rw [List.getLast?_append, List.getLast?_cons_cons, ht] at htail
    exact htail
  have htk : t ≠ k := by
    intro heq
    rw [heq] at hlast
    exact hk (List.mem_of_getLast? hlast)
  have hnext : ((s.links.skipNext k).skipPrev k).next k = some b := by
    rw [Links.skipPrev_next]
    exact (h.segment.skipNext h.nodup).2.2.1
  refine ⟨_, freeSample_eq htail htk, ⟨?_, List.getLast?_concat.symm, ?_, ?_, ?_⟩, rfl, rfl, rfl⟩
  · have hhead : s.modelSamplesHead = l₁.head?.or (some k) := by
      rw [show s.modelSamplesHead = _ from h.head, List.head?_append]
      rfl
    rw [hnext, hhead, List.append_assoc, List.head?_append]
    cases l₁ with
    | nil => exact if_pos rfl
    | cons a l₁ =>
        refine if_neg fun heq => hk ?_
        rw [← Option.some.inj heq]
        exact List.mem_cons_self
  · have hn := h.size
    simp only [List.length_append, List.length_cons, List.length_nil] at hn ⊢
    exact hn.trans (by omega)
  · exact (List.perm_append_singleton k _).nodup_iff.mpr (List.nodup_cons.mpr ⟨hk, hnd⟩)
  · exact (h.segment.unlink h.nodup).snoc hlast hk hnd

end AnalysisState

/-! ## Cells and events -/

theorem map_update_of_notMem {γ : Type} {k : Nat} {l : List Nat} (hk : k ∉ l) (f : Nat → γ)
    (x : γ) : l.map (Function.update f k x) = l.map f :=
  List.map_congr_left fun a ha => Function.update_of_ne (fun heq : a = k => hk (heq ▸ ha)) x f

theorem map_update_concat {γ : Type} {k : Nat} {l : List Nat} (hk : k ∉ l) (f : Nat → γ)
    (x : γ) : (l ++ [k]).map (Function.update f k x) = l.map f ++ [x] := by
  rw [List.map_append, map_update_of_notMem hk, List.map_singleton, Function.update_self]

/-- The cells of the list are those that were allocated, and the cells in front of the
current one hold the events, in their order. -/
structure HoldsEvents (n : Nat) (lp : AnalysisState T B) (events : List (SampleEvent T B))
    (busy : List Nat) (current : Nat) (free : List Nat) : Prop where
  represents : Represents lp.links ⟨lp.modelSamplesHead, lp.modelSamplesTail, n⟩
    (busy ++ current :: free)
  allocated : (busy ++ current :: free).Perm (List.range n)
  current : lp.modelSamplesCurrent = some current
  timestamp : busy.map lp.timestamp = events.map SampleEvent.timestamp
  data : busy.map lp.lpData = events.map SampleEvent.data

variable {lp : AnalysisState T B} {events : List (SampleEvent T B)} {busy free : List Nat}
  {current n : Nat}

namespace HoldsEvents

theorem start (blank : Nat → B) (hn : 2 ≤ n) :
    HoldsEvents (T := T) n (AnalysisState.analysisInit n blank) [] [] 0
      (List.range' 1 (n - 1)) := by
  have hlist : [] ++ 0 :: List.range' 1 (n - 1) = List.range n := by
    obtain ⟨m, rfl⟩ := Nat.exists_eq_add_of_le' hn
    rw [List.range_eq_range']
    rfl
  refine ⟨?_, ?_, ?_, rfl, rfl⟩
  · rw [hlist]
    exact AnalysisState.represents_init hn blank
  · rw [hlist]
  · rw [AnalysisState.analysisInit_eq hn]
    rfl

section

omit [TwStime T]

theorem length_eq (h : HoldsEvents n lp events busy current free) :
    busy.length = events.length := by
  have hlen := congrArg List.length h.timestamp
  rwa [List.length_map, List.length_map] at hlen

theorem length_free (h : HoldsEvents n lp events busy current free) :
    events.length + 1 + free.length = n := by
  have hn : n = _ := h.represents.size
  rw [List.length_append, List.length_cons, h.length_eq] at hn
  omega

theorem current_notMem (h : HoldsEvents n lp events busy current free) : current ∉ busy := by
  intro hmem
  exact (List.nodup_append'.mp h.represents.nodup).2.2 hmem List.mem_cons_self

/-- An event takes the current cell. -/
theorem event (h : HoldsEvents n lp events busy current free) (hroom : events.length + 1 < n)
    (numLps : Nat) (now : T) (sampleEvent : Nat → B → B) :
    ∃ data lp' next rest, lp.analysisEvent numLps now sampleEvent = .ok (data, lp') ∧
      HoldsEvents n lp' (events ++ [⟨now, data⟩]) (busy ++ [current]) next rest := by
  obtain ⟨next, rest, rfl⟩ : ∃ next rest, free = next :: rest := by
    apply List.exists_cons_of_ne_nil
    intro hnil
    have hlen := h.length_free
    rw [hnil, List.length_nil] at hlen
    omega
  have hlist : busy ++ [current] ++ next :: rest = busy ++ current :: next :: rest := by
    rw [List.append_assoc, List.singleton_append]
  have hev : lp.analysisEvent numLps now sampleEvent =
      .ok (AnalysisState.forLps numLps sampleEvent (lp.lpData current),
        { lp with
          timestamp := Function.update lp.timestamp current now
          lpData := Function.update lp.lpData current
            (AnalysisState.forLps numLps sampleEvent (lp.lpData current))
          modelSamplesCurrent := lp.links.next current }) := by
    unfold AnalysisState.analysisEvent
    rw [h.current]
  refine ⟨_, _, next, rest, hev, ?_, ?_, ?_, ?_, ?_⟩
  · rw [hlist]
    exact h.represents
  · rw [hlist]
    exact h.allocated
  · exact h.represents.segment.next_eq
  · rw [map_update_concat h.current_notMem, h.timestamp, List.map_append]
    rfl
  · rw [map_update_concat h.current_notMem, h.data, List.map_append]
    rfl

end

/-- A cell that no event uses any more goes behind the last one. -/
theorem release {l₁ l₂ : List Nat} {k : Nat}
    (hrep : Represents lp.links ⟨lp.modelSamplesHead, lp.modelSamplesTail, n⟩ (l₁ ++ k :: l₂))
    (hall : (l₁ ++ k :: l₂).Perm (List.range n)) (hl : l₂ ≠ [])
    (hlist : l₁ ++ l₂ = busy ++ current :: free) (hcur : lp.modelSamplesCurrent = some current)
    (hts : busy.map lp.timestamp = events.map SampleEvent.timestamp)
    (hdata : busy.map lp.lpData = events.map SampleEvent.data) :
    ∃ lp', lp.freeSample k = .ok lp' ∧ HoldsEvents n lp' events busy current (free ++ [k]) := by
  obtain ⟨lp', hfree, hrep', hts', hdata', hcur'⟩ := AnalysisState.freeSample_ok hrep hl
  have hperm : (l₁ ++ l₂ ++ [k]).Perm (l₁ ++ k :: l₂) :=
    (List.perm_append_singleton k _).trans List.perm_middle.symm
  have hk : k ∉ busy := by
    have hnotMem := (List.nodup_cons.mp (List.perm_middle.nodup_iff.mp hrep.nodup)).1
    rw [hlist] at hnotMem
    exact fun hmem => hnotMem (List.mem_append_left _ hmem)
  have hnew : l₁ ++ l₂ ++ [k] = busy ++ current :: (free ++ [k]) := by
    rw [hlist, List.append_assoc, List.cons_append]
  rw [hnew] at hrep' hperm
  refine ⟨lp', hfree, hrep', hperm.trans hall, hcur'.trans hcur, ?_, ?_⟩
  · rw [hts', map_update_of_notMem hk]
    exact hts
  · rw [hdata']
    exact hdata

/-- The latest event is undone: its cell is found from the current one. -/
theorem rc {e : SampleEvent T B} (h : HoldsEvents n lp (events ++ [e]) busy current free)
    (numLps : Nat) (sampleRevent : Nat → B → B) :
    ∃ lp' busy' free',
      lp.analysisEventRc numLps n e.timestamp sampleRevent =
        .ok ((List.range numLps).map fun j => (j, e.data j), lp') ∧
      HoldsEvents n lp' events busy' current free' := by
  have hts := h.timestamp
  have hdata := h.data
  rw [List.map_append, List.map_singleton] at hts hdata
  obtain ⟨b, k, rfl⟩ : ∃ b k, busy = b ++ [k] := by
    rcases List.eq_nil_or_concat' busy with rfl | hcons
    · exact absurd hts.symm (List.append_ne_nil_of_right_ne_nil _ (List.cons_ne_nil _ _))
    · exact hcons
  rw [List.map_append, List.map_singleton] at hts hdata
  obtain ⟨hbts, hkts⟩ := List.append_inj' hts rfl
  obtain ⟨hbdata, hkdata⟩ := List.append_inj' hdata rfl
  rw [List.singleton_inj] at hkts hkdata
  have hrep := h.represents
  have hall := h.allocated
  rw [List.append_assoc, List.singleton_append] at hrep hall
  have hkb : k ∉ b := fun hk => (List.nodup_append'.mp hrep.nodup).2.2 hk List.mem_cons_self
  have hprev : lp.links.prev current = some k := by
    rw [h.represents.segment.prev_eq, List.getLast?_concat]
    rfl
  have hn : 0 < n := by
    have hlen := h.length_free
    omega
  -- the reverse functions write to the cell before it is freed
  let lp₁ : AnalysisState T B := { lp with
    lpData := Function.update lp.lpData k
      (AnalysisState.forLps numLps sampleRevent (lp.lpData k)) }
  have hdata₁ : b.map lp₁.lpData = events.map SampleEvent.data :=
    (map_update_of_notMem hkb _ _).trans hbdata
  obtain ⟨lp', hfree, hheld⟩ : ∃ lp', lp₁.freeSample k = .ok lp' ∧
      HoldsEvents n lp' events b current (free ++ [k]) :=
    release hrep hall (List.cons_ne_nil current free) rfl h.current hbts hdata₁
  have hfind : AnalysisState.findSample lp.timestamp lp.links.prev e.timestamp n
      (lp.links.prev current) = .ok (some k) := by
    rw [hprev]
    exact AnalysisState.findSample_here hkts _ hn
  refine ⟨lp', b, free ++ [k], ?_, hheld⟩
  rw [AnalysisState.analysisEventRc_found h.current hfind, hfree, ← hkdata]
  rfl

/-- The oldest event is committed: its cell is the first one. -/
theorem commit {e : SampleEvent T B} (h : HoldsEvents n lp (e :: events) busy current free)
    (numLps : Nat) :
    ∃ lp' busy' free',
      lp.analysisCommit numLps n e.timestamp =
        .ok ((List.range numLps).map fun j => ⟨j, e.timestamp, e.data j⟩, lp') ∧
      HoldsEvents n lp' events busy' current free' := by
  have hts := h.timestamp
  have hdata := h.data
  rw [List.map_cons] at hts hdata
  obtain ⟨k, b, rfl⟩ : ∃ k b, busy = k :: b := by
    apply List.exists_cons_of_ne_nil
    intro hnil
    rw [hnil] at hts
    exact List.cons_ne_nil _ _ hts.symm
  obtain ⟨hkts, hbts⟩ := List.cons_eq_cons.mp hts
  obtain ⟨hkdata, hbdata⟩ := List.cons_eq_cons.mp hdata
  have hhead : lp.modelSamplesHead = some k := h.represents.head
  have hn : 0 < n := by
    have hlen := h.length_free
    omega
  have hl : b ++ current :: free ≠ [] :=
    List.append_ne_nil_of_right_ne_nil b (List.cons_ne_nil current free)
  obtain ⟨lp', hfree, hheld⟩ : ∃ lp', lp.freeSample k = .ok lp' ∧
      HoldsEvents n lp' events b current (free ++ [k]) :=
    release h.represents h.allocated hl (List.nil_append _) h.current hbts hbdata
  have hfind : AnalysisState.findSample lp.timestamp lp.links.next e.timestamp n
      lp.modelSamplesHead = .ok (some k) := by
    rw [hhead]
    exact AnalysisState.findSample_here hkts _ hn
  refine ⟨lp', b, free ++ [k], ?_, hheld⟩
  rw [AnalysisState.analysisCommit_found hfind, hfree, ← hkdata]
  rfl

end HoldsEvents

/-! ## Runs -/

/-- The list holds the events that are not committed, in the order of their times. -/
structure AnalysisRun.Inv (c : AnalysisSetup) (s : AnalysisRun T B) : Prop where
  list : ∃ busy current free, HoldsEvents c.sampleCount s.lp s.events busy current free
  sorted : s.events.Pairwise fun a b => a.timestamp ≤ b.timestamp

namespace AnalysisRun

variable {s : AnalysisRun T B}

theorem inv_start (blank : Nat → B) : (start (T := T) c blank).Inv c :=
  ⟨⟨[], 0, _, HoldsEvents.start blank c.two_le⟩, List.Pairwise.nil⟩

namespace Inv

theorem event (h : s.Inv c) {now : T} {sampleEvent : Nat → B → B}
    (hok : s.Allowed c (.event now sampleEvent)) :
    ∃ s', s.step c (.event now sampleEvent) = .ok s' ∧ s'.Inv c := by
  obtain ⟨busy, current, free, hlist⟩ := h.list
  obtain ⟨data, lp', next, rest, hev, hlist'⟩ := hlist.event hok.1 c.numLps now sampleEvent
  refine ⟨{ s with lp := lp', events := s.events ++ [⟨now, data⟩] }, ?_, ⟨_, _, _, hlist'⟩, ?_⟩
  · simp only [AnalysisRun.step, hev]
    rfl
  · refine List.pairwise_append.mpr ⟨h.sorted, List.pairwise_singleton _ _, ?_⟩
    intro a ha b hb
    rw [List.mem_singleton.mp hb]
    exact hok.2 a ha

theorem rc (h : s.Inv c) {e : SampleEvent T B} (he : s.events.getLast? = some e)
    (sampleRevent : Nat → B → B) :
    ∃ s', s.step c (.rc sampleRevent) = .ok s' ∧ s'.Inv c ∧ s'.events = s.events.dropLast ∧
      s'.passed = (List.range c.numLps).map fun j => (j, e.data j) := by
  obtain ⟨busy, current, free, hlist⟩ := h.list
  have hevents : s.events = s.events.dropLast ++ [e] :=
    (List.dropLast_append_getLast? e he).symm
  rw [hevents] at hlist
  obtain ⟨lp', busy', free', hrc, hlist'⟩ := hlist.rc c.numLps sampleRevent
  refine ⟨⟨lp', s.events.dropLast, (List.range c.numLps).map fun j => (j, e.data j), s.written⟩,
    ?_, ⟨⟨_, _, _, hlist'⟩, h.sorted.sublist (List.dropLast_sublist _)⟩, rfl, rfl⟩
  simp only [AnalysisRun.step, he, hrc]
  rfl

theorem commit (h : s.Inv c) {e : SampleEvent T B} {events : List (SampleEvent T B)}
    (he : s.events = e :: events) :
    ∃ s', s.step c .commit = .ok s' ∧ s'.Inv c ∧ s'.events = events ∧
      s'.written = (List.range c.numLps).map fun j => ⟨j, e.timestamp, e.data j⟩ := by
  obtain ⟨busy, current, free, hlist⟩ := h.list
  rw [he] at hlist
  obtain ⟨lp', busy', free', hcommit, hlist'⟩ := hlist.commit c.numLps
  have hsorted := h.sorted
  rw [he] at hsorted
  refine ⟨⟨lp', events, s.passed, (List.range c.numLps).map fun j => ⟨j, e.timestamp, e.data j⟩⟩,
    ?_, ⟨⟨_, _, _, hlist'⟩, (List.pairwise_cons.mp hsorted).2⟩, rfl, rfl⟩
  simp only [AnalysisRun.step, he, hcommit]
  rfl

/-- What an admitted step keeps. -/
theorem step (h : s.Inv c) {l : AnalysisLabel T B} (hok : s.Allowed c l) :
    ∃ s', s.step c l = .ok s' ∧ s'.Inv c := by
  cases l with
  | event now sampleEvent => exact h.event hok
  | rc sampleRevent =>
      obtain ⟨s', hstep, hinv, -⟩ :=
        h.rc (List.getLast?_eq_some_getLast hok) sampleRevent
      exact ⟨s', hstep, hinv⟩
  | commit =>
      obtain ⟨e, events, he⟩ := List.exists_cons_of_ne_nil hok
      obtain ⟨s', hstep, hinv, -⟩ := h.commit he
      exact ⟨s', hstep, hinv⟩

theorem of_reached {blank : Nat → B} (hs : s.Reached c blank) : s.Inv c := by
  refine ReachableVia.invariant ?_ ?_ hs
  · rintro s rfl
    exact inv_start blank
  · intro s l s' h hok hstep
    obtain ⟨s'', hstep', hinv⟩ := h.step hok
    rw [hstep, Except.ok.injEq] at hstep'
    rwa [hstep']

end Inv

end AnalysisRun

/-- The cells in front of the current one hold the events that are not committed, in the
order of their times, no admitted step fails, the reverse functions get what the latest
event stored, and a commit writes what the oldest one stored. -/
structure SamplesKept (c : AnalysisSetup) (s : AnalysisRun T B) : Prop where
  list : ∃ busy current free, HoldsEvents c.sampleCount s.lp s.events busy current free
  sorted : s.events.Pairwise fun a b => a.timestamp ≤ b.timestamp
  defined : ∀ l, s.Allowed c l → ∃ s', s.step c l = .ok s'
  undone : ∀ sampleRevent e s', s.events.getLast? = some e →
    s.step c (.rc sampleRevent) = .ok s' →
    s'.passed = (List.range c.numLps).map fun j => (j, e.data j)
  committed : ∀ e s', s.events.head? = some e → s.step c .commit = .ok s' →
    s'.written = (List.range c.numLps).map fun j => ⟨j, e.timestamp, e.data j⟩

/-- The samples of an analysis LP are kept in every run. -/
theorem samples_kept (c : AnalysisSetup) (blank : Nat → B) (s : AnalysisRun T B)
    (hs : s.Reached c blank) : SamplesKept c s := by
  have hinv := AnalysisRun.Inv.of_reached hs
  refine ⟨hinv.list, hinv.sorted, ?_, ?_, ?_⟩
  · intro l hok
    obtain ⟨s', hstep, -⟩ := hinv.step hok
    exact ⟨s', hstep⟩
  · intro sampleRevent e s' he hstep
    obtain ⟨s'', hstep', -, -, hpassed⟩ := hinv.rc he sampleRevent
    rw [hstep, Except.ok.injEq] at hstep'
    rwa [hstep']
  · intro e s' he hstep
    obtain ⟨events, hevents⟩ := List.head?_eq_some_iff.mp he
    obtain ⟨s'', hstep', -, -, hwritten⟩ := hinv.commit hevents
    rw [hstep, Except.ok.injEq] at hstep'
    rwa [hstep']

/-- Three cells and one LP: of two events the later one is undone and executed again, and
the earlier one is committed. -/
theorem samples_kept_three : ∃ s : AnalysisRun Int Nat,
    s.Reached ⟨3, by decide, 1, by decide⟩ (fun _ => 0) ∧
    (s.passed = [(0, 8)] ∧ s.written = [⟨0, 10, 7⟩] ∧ s.events.length = 1) ∧
    SamplesKept ⟨3, by decide, 1, by decide⟩ s := by
  have hrun : ∃ s : AnalysisRun Int Nat, s.Reached ⟨3, by decide, 1, by decide⟩ (fun _ => 0) ∧
      decide (s.passed = [(0, 8)] ∧ s.written = [⟨0, 10, 7⟩] ∧ s.events.length = 1) = true :=
    ReachableVia.exists_of_runList
      (fun s l => decide (AnalysisRun.Allowed ⟨3, by decide, 1, by decide⟩ s l)) _
      [.event 10 fun _ _ => 7, .event 20 fun _ _ => 8, .rc fun _ d => d + 1,
        .event 25 fun _ _ => 9, .commit]
      (fun _ _ h => of_decide_eq_true h) (.start rfl) (by decide +kernel)
  obtain ⟨s, hs, ht⟩ := hrun
  exact ⟨s, hs, of_decide_eq_true ht, samples_kept _ _ s hs⟩

end Ross

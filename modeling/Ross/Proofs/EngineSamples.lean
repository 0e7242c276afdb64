import Ross.Core.EngineStats
import Mathlib.Algebra.Group.Basic

/-!
# Sums of samples

What a counter reports over all samples of a type is what was saved at the last of them.
That is the counter itself, except for `s_ngvts`, of which nothing is saved, and for
`all_reduce_count`, which the samples of all types save in one place.
-/

namespace Ross

/-! ## Sums of records -/

/-- The sum of a value of the records of a type. -/
def total (col : CollectionType) (value : EngineRecord → Option (BitVec 32))
    (records : List (CollectionType × EngineRecord)) : BitVec 32 :=
  (records.filterMap fun r => if r.1 = col then value r.2 else none).sum

/-- A counter of a PE record, of the records of a KP, and of those of an LP. -/
def peValue (x : PeCounter) : EngineRecord → Option (BitVec 32)
  | .peType v => some (v x)
  | _ => none

def kpValue (k : Nat) (x : KpCounter) : EngineRecord → Option (BitVec 32)
  | .kpType i v => if i = k then some (v x) else none
  | _ => none

def lpValue (l : Nat) (x : LpCounter) : EngineRecord → Option (BitVec 32)
  | .lpType i v => if i = l then some (v x) else none
  | _ => none

variable {c : EngineSetup} {col : CollectionType} {value : EngineRecord → Option (BitVec 32)}

theorem total_append (a b : List (CollectionType × EngineRecord)) :
    total col value (a ++ b) = total col value a + total col value b := by
  unfold total
  rw [List.filterMap_append, List.sum_append]

theorem total_sample (col' : CollectionType) (records : List EngineRecord) :
    total col value (records.map fun r => (col', r)) =
      if col' = col then (records.filterMap value).sum else 0 := by
  unfold total
  rw [List.filterMap_map]
  by_cases h : col' = col
  · simp only [Function.comp_def, h, if_true]
  · have hnone : ∀ r ∈ records, (if col' = col then value r else none) = none :=
      fun r _ => if_neg h
    rw [if_neg h]
    simp only [Function.comp_def]
    rw [List.filterMap_eq_nil_iff.mpr hnone]
    rfl

/-! ## A sample -/

theorem setWidth_sub (x y : BitVec 64) :
    (x - y).setWidth 32 = x.setWidth 32 - y.setWidth 32 := by
  rw [sub_eq_add_neg, BitVec.setWidth_add _ _ (by decide), BitVec.setWidth_neg_of_le (by decide),
    sub_eq_add_neg]

section

variable (c) (last : LastStats) (pe : EnginePe) (col : CollectionType)

theorem sampleIf_fst (flag : Bool) (collect : LastStats → List EngineRecord × LastStats) :
    (sampleIf flag collect last).1 = if flag then (collect last).1 else [] := by
  unfold sampleIf
  split <;> rfl

theorem sampleIf_snd (flag : Bool) (collect : LastStats → List EngineRecord × LastStats) :
    (sampleIf flag collect last).2 = if flag then (collect last).2 else last := by
  unfold sampleIf
  split <;> rfl

theorem saved_pe : (stCollectEngineData c last pe col).2.pe =
    if c.peData then Function.update last.pe col (twGetStats c pe) else last.pe := by
  unfold stCollectEngineData
  simp only [sampleIf_snd]
  split_ifs <;> rfl

theorem saved_allReduceCnt : (stCollectEngineData c last pe col).2.allReduceCnt =
    if c.peData then pe.allReduceCnt else last.allReduceCnt := by
  unfold stCollectEngineData
  simp only [sampleIf_snd]
  split_ifs <;> rfl

theorem saved_kp : (stCollectEngineData c last pe col).2.kp =
    if c.kpData then Function.update last.kp col fun i =>
      if i < c.nkp then (pe.kp i).kpStats else last.kp col i else last.kp := by
  unfold stCollectEngineData
  simp only [sampleIf_snd]
  split_ifs <;> rfl

theorem saved_lp : (stCollectEngineData c last pe col).2.lp =
    if c.lpData then Function.update last.lp col fun i =>
      if i < c.nlp then pe.lpStats i else last.lp col i else last.lp := by
  unfold stCollectEngineData
  simp only [sampleIf_snd]
  split_ifs <;> rfl

/-- The records of a sample: one of the PE, and those of the KPs and the LPs. -/
theorem records_eq : (stCollectEngineData c last pe col).1 =
    (if c.peData then [.peType (peStats last pe (twGetStats c pe) col)] else []) ++
    (if c.kpData then (List.range c.nkp).map fun i =>
      .kpType i fun x => (pe.kp i).kpStats x - last.kp col i x else []) ++
    if c.lpData then (List.range c.nlp).map fun i =>
      .lpType i fun x => pe.lpStats i x - last.lp col i x else [] := by
  unfold stCollectEngineData
  simp only [sampleIf_fst, sampleIf_snd]
  split_ifs <;> rfl

/-- Of one record for each index below `n`, one is found. -/
theorem filterMap_range_eq {n k : Nat} (hk : k < n) (f : Nat → BitVec 32) :
    ((List.range n).filterMap fun i => if i = k then some (f i) else none) = [f k] := by
  induction n with
  | zero => cases hk
  | succ n ih =>
      rw [List.range_succ, List.filterMap_append]
      by_cases h : k = n
      · have hnone : (List.range n).filterMap (fun i => if i = k then some (f i) else none) =
            [] := by
          rw [List.filterMap_eq_nil_iff]
          intro i hi
          rw [List.mem_range] at hi
          exact if_neg (by omega)
        rw [hnone, h]
        simp
      · rw [ih (by omega)]
        simp [Ne.symm h]

theorem filterMap_peValue (x : PeCounter) :
    (stCollectEngineData c last pe col).1.filterMap (peValue x) =
      if c.peData then [peStats last pe (twGetStats c pe) col x] else [] := by
  rw [records_eq, List.filterMap_append, List.filterMap_append]
  split_ifs <;> simp [peValue, List.filterMap_map, Function.comp_def]

theorem filterMap_kpValue {k : Nat} (hk : k < c.nkp) (x : KpCounter) :
    (stCollectEngineData c last pe col).1.filterMap (kpValue k x) =
      if c.kpData then [(pe.kp k).kpStats x - last.kp col k x] else [] := by
  have hone := filterMap_range_eq hk fun i => (pe.kp i).kpStats x - last.kp col i x
  rw [records_eq, List.filterMap_append, List.filterMap_append]
  split_ifs <;> simp [kpValue, List.filterMap_map, Function.comp_def, hone]

theorem filterMap_lpValue {l : Nat} (hl : l < c.nlp) (x : LpCounter) :
    (stCollectEngineData c last pe col).1.filterMap (lpValue l x) =
      if c.lpData then [pe.lpStats l x - last.lp col l x] else [] := by
  have hone := filterMap_range_eq hl fun i => pe.lpStats i x - last.lp col i x
  rw [records_eq, List.filterMap_append, List.filterMap_append]
  split_ifs <;> simp [lpValue, List.filterMap_map, Function.comp_def, hone]

end

/-! ## A run -/

theorem collectAll_append (samples : List EngineSample) (sample : EngineSample) :
    collectAll c (samples ++ [sample]) =
      ((collectAll c samples).1 ++
        (stCollectEngineData c (collectAll c samples).2 sample.2 sample.1).1.map fun r =>
          (sample.1, r),
        (stCollectEngineData c (collectAll c samples).2 sample.2 sample.1).2) := by
  unfold collectAll
  rw [List.foldl_append]
  rfl

theorem total_collectAll_append (samples : List EngineSample) (sample : EngineSample) :
    total col value (collectAll c (samples ++ [sample])).1 =
      total col value (collectAll c samples).1 +
        if sample.1 = col then ((stCollectEngineData c (collectAll c samples).2 sample.2
          sample.1).1.filterMap value).sum else 0 := by
  rw [collectAll_append, total_append, total_sample]

section

variable (saved : LastStats → BitVec 32) (current : EnginePe → BitVec 32)

/-- Where each sample of a type reports what a counter has grown by, and saves it, the sum
is the value saved. -/
theorem total_eq_saved (hstart : saved LastStats.start = 0)
    (hstep : ∀ last (sample : EngineSample),
      saved (stCollectEngineData c last sample.2 sample.1).2 =
        if col = sample.1 then current sample.2 else saved last)
    (hreport : ∀ last pe, ((stCollectEngineData c last pe col).1.filterMap value).sum =
      current pe - saved last) (samples : List EngineSample) :
    total col value (collectAll c samples).1 = saved (collectAll c samples).2 := by
  induction samples using List.reverseRecOn with
  | nil => exact hstart.symm
  | append_singleton samples sample ih =>
      rw [total_collectAll_append, ih, collectAll_append, hstep]
      by_cases h : sample.1 = col
      · rw [if_pos h, if_pos h.symm, h, hreport, add_sub_cancel]
      · rw [if_neg h, if_neg (Ne.symm h), add_zero]

/-- That is then the counter at the last of them. -/
theorem total_eq_current (hstart : saved LastStats.start = 0)
    (hstep : ∀ last (sample : EngineSample),
      saved (stCollectEngineData c last sample.2 sample.1).2 =
        if col = sample.1 then current sample.2 else saved last)
    (hreport : ∀ last pe, ((stCollectEngineData c last pe col).1.filterMap value).sum =
      current pe - saved last) (before : List EngineSample) (pe : EnginePe)
    {after : List EngineSample} (hafter : ∀ sample ∈ after, sample.1 ≠ col) :
    total col value (collectAll c (before ++ (col, pe) :: after)).1 = current pe := by
  rw [total_eq_saved saved current hstart hstep hreport]
  induction after using List.reverseRecOn with
  | nil => rw [collectAll_append, hstep, if_pos rfl]
  | append_singleton after sample ih =>
      rw [← List.cons_append, ← List.append_assoc, collectAll_append, hstep,
        if_neg (hafter sample (by simp)).symm]
      exact ih fun s hs => hafter s (List.mem_append_left _ hs)

end

/-! ## The counters -/

section

variable {before after : List EngineSample} {pe : EnginePe}

/-- A counter that `tw_get_stats` returns is saved for each type. -/
theorem peStats_of_saved {x : PeCounter} (hg : x ≠ .sNgvts) (hr : x ≠ .allReduceCount)
    (last : LastStats) (pe : EnginePe) (s : PeCounter → BitVec 64) :
    peStats last pe s col x = (s x - last.pe col x).setWidth 32 := by
  cases x with
  | sNgvts => exact absurd rfl hg
  | allReduceCount => exact absurd rfl hr
  | _ => rfl

theorem twGetStats_of_saved {x : PeCounter} (hg : x ≠ .sNgvts) (hr : x ≠ .allReduceCount)
    (pe : EnginePe) : twGetStats c pe x = pe.counter c x := by
  cases x with
  | sNgvts => exact absurd rfl hg
  | allReduceCount => exact absurd rfl hr
  | _ => rfl

theorem total_pe (hdata : c.peData = true) {x : PeCounter} (hg : x ≠ .sNgvts)
    (hr : x ≠ .allReduceCount) (hafter : ∀ sample ∈ after, sample.1 ≠ col) :
    total col (peValue x) (collectAll c (before ++ (col, pe) :: after)).1 =
      (pe.counter c x).setWidth 32 := by
  apply total_eq_current (fun last => (last.pe col x).setWidth 32)
    (fun pe => (pe.counter c x).setWidth 32) rfl _ _ before pe hafter
  · intro last sample
    simp only [saved_pe, if_pos hdata, Function.update_apply]
    by_cases h : col = sample.1
    · simp only [if_pos h, twGetStats_of_saved hg hr]
    · simp only [if_neg h]
  · intro last pe
    rw [filterMap_peValue, if_pos hdata, List.sum_singleton, peStats_of_saved hg hr,
      twGetStats_of_saved hg hr, setWidth_sub]

theorem total_kp (hdata : c.kpData = true) {k : Nat} (hk : k < c.nkp) (x : KpCounter)
    (hafter : ∀ sample ∈ after, sample.1 ≠ col) :
    total col (kpValue k x) (collectAll c (before ++ (col, pe) :: after)).1 =
      (pe.kp k).kpStats x := by
  apply total_eq_current (fun last => last.kp col k x) (fun pe => (pe.kp k).kpStats x) rfl _ _
    before pe hafter
  · intro last sample
    simp only [saved_kp, if_pos hdata, Function.update_apply]
    by_cases h : col = sample.1
    · simp only [if_pos h, if_pos hk]
    · simp only [if_neg h]
  · intro last pe
    rw [filterMap_kpValue _ _ _ _ hk, if_pos hdata, List.sum_singleton]

theorem total_lp (hdata : c.lpData = true) {l : Nat} (hl : l < c.nlp) (x : LpCounter)
    (hafter : ∀ sample ∈ after, sample.1 ≠ col) :
    total col (lpValue l x) (collectAll c (before ++ (col, pe) :: after)).1 =
      pe.lpStats l x := by
  apply total_eq_current (fun last => last.lp col l x) (fun pe => pe.lpStats l x) rfl _ _
    before pe hafter
  · intro last sample
    simp only [saved_lp, if_pos hdata, Function.update_apply]
    by_cases h : col = sample.1
    · simp only [if_pos h, if_pos hl]
    · simp only [if_neg h]
  · intro last pe
    rw [filterMap_lpValue _ _ _ _ hl, if_pos hdata, List.sum_singleton]

end

/-! ## What is not saved for each type -/

/-- The numbers of GVT computations at the samples of a type. -/
def gvtCounts (col : CollectionType) (samples : List EngineSample) : List (BitVec 32) :=
  (samples.filter fun sample => sample.1 = col).map fun sample => sample.2.gvtDone

/-- What `all_reduce_cnt` has grown by at each sample since the sample before. -/
def reduceSteps (prev : BitVec 64) : List EngineSample → List (CollectionType × BitVec 32)
  | [] => []
  | (col, pe) :: samples =>
      (col, (pe.allReduceCnt - prev).setWidth 32) :: reduceSteps pe.allReduceCnt samples

/-- The steps that the samples of the types in `p` end. -/
def stepSum (p : CollectionType → Bool) (steps : List (CollectionType × BitVec 32)) : BitVec 32 :=
  ((steps.filter fun step => p step.1).map (·.2)).sum

/-- `all_reduce_cnt` at the last sample. -/
def lastReduce (prev : BitVec 64) (samples : List EngineSample) : BitVec 64 :=
  samples.foldl (fun _ sample => sample.2.allReduceCnt) prev

theorem reduceSteps_append (prev : BitVec 64) (samples : List EngineSample)
    (sample : EngineSample) : reduceSteps prev (samples ++ [sample]) =
      reduceSteps prev samples ++
        [(sample.1, (sample.2.allReduceCnt - lastReduce prev samples).setWidth 32)] := by
  induction samples generalizing prev with
  | nil => rfl
  | cons s samples ih => exact congrArg (_ :: ·) (ih s.2.allReduceCnt)

theorem stepSum_append (p : CollectionType → Bool) (a b : List (CollectionType × BitVec 32)) :
    stepSum p (a ++ b) = stepSum p a + stepSum p b := by
  unfold stepSum
  rw [List.filter_append, List.map_append, List.sum_append]

/-- The steps of all types make up the counter. -/
theorem stepSum_add_stepSum (p : CollectionType → Bool) (samples : List EngineSample) :
    stepSum p (reduceSteps 0 samples) + stepSum (fun col => !p col) (reduceSteps 0 samples) =
      (lastReduce 0 samples).setWidth 32 := by
  induction samples using List.reverseRecOn with
  | nil => rfl
  | append_singleton samples sample ih =>
      have hone : ∀ p : CollectionType → Bool, ∀ v,
          stepSum p [(sample.1, v)] + stepSum (fun col => !p col) [(sample.1, v)] = v := by
        intro p v
        unfold stepSum
        cases hp : p sample.1 <;> simp [hp]
      have hlast : lastReduce 0 (samples ++ [sample]) = sample.2.allReduceCnt := by
        unfold lastReduce
        rw [List.foldl_append]
        rfl
      have hstep := hone p ((sample.2.allReduceCnt - lastReduce 0 samples).setWidth 32)
      rw [reduceSteps_append, stepSum_append, stepSum_append, add_add_add_comm, ih, hstep,
        setWidth_sub, add_sub_cancel, hlast]

theorem last_allReduceCnt (hdata : c.peData = true) (samples : List EngineSample) :
    (collectAll c samples).2.allReduceCnt = lastReduce 0 samples := by
  induction samples using List.reverseRecOn with
  | nil => rfl
  | append_singleton samples sample ih =>
      unfold lastReduce
      rw [collectAll_append, saved_allReduceCnt, if_pos hdata, List.foldl_append]
      rfl

theorem setWidth_gvtDone (pe : EnginePe) :
    (pe.counter c .sNgvts).setWidth 32 = pe.gvtDone := by
  unfold EnginePe.counter
  rw [BitVec.setWidth_setWidth_of_le _ (by decide), BitVec.setWidth_eq]

theorem last_sNgvts (samples : List EngineSample) :
    (collectAll c samples).2.pe col .sNgvts = 0 := by
  induction samples using List.reverseRecOn with
  | nil => rfl
  | append_singleton samples sample ih =>
      rw [collectAll_append, saved_pe]
      split
      · rw [Function.update_apply]
        split
        · rfl
        · exact ih
      · exact ih

/-- The samples of a type report the counts themselves. -/
theorem total_sNgvts (hdata : c.peData = true) (samples : List EngineSample) :
    total col (peValue .sNgvts) (collectAll c samples).1 = (gvtCounts col samples).sum := by
  induction samples using List.reverseRecOn with
  | nil => rfl
  | append_singleton samples sample ih =>
      have hreport : ∀ pe, peStats (collectAll c samples).2 pe (twGetStats c pe) sample.1
          .sNgvts = pe.gvtDone := by
        intro pe
        unfold peStats
        rw [last_sNgvts, sub_zero]
        exact setWidth_gvtDone (c := c) pe
      rw [total_collectAll_append, ih, filterMap_peValue, if_pos hdata, List.sum_singleton,
        hreport]
      unfold gvtCounts
      rw [List.filter_append, List.map_append, List.sum_append]
      by_cases h : sample.1 = col <;> simp [h]

/-- The samples of a type report the steps that they end. -/
theorem total_allReduceCount (hdata : c.peData = true) (samples : List EngineSample) :
    total col (peValue .allReduceCount) (collectAll c samples).1 =
      stepSum (fun col' => col' = col) (reduceSteps 0 samples) := by
  induction samples using List.reverseRecOn with
  | nil => rfl
  | append_singleton samples sample ih =>
      have hreport : ∀ pe, peStats (collectAll c samples).2 pe (twGetStats c pe) sample.1
          .allReduceCount = (pe.allReduceCnt - lastReduce 0 samples).setWidth 32 := by
        intro pe
        unfold peStats
        rw [last_allReduceCnt hdata]
      rw [total_collectAll_append, ih, filterMap_peValue, if_pos hdata, List.sum_singleton,
        hreport, reduceSteps_append, stepSum_append]
      congr 1
      unfold stepSum
      by_cases h : sample.1 = col <;> simp [h]

/-! ## All counters -/

/-- In every run each interval counter, summed over the samples of a type, is the counter
at the last of these samples. -/
def Telescopes (c : EngineSetup) (samples : List EngineSample) : Prop :=
  ∀ col before pe after, samples = before ++ (col, pe) :: after →
    (∀ sample ∈ after, sample.1 ≠ col) →
    (c.peData = true → ∀ x, total col (peValue x) (collectAll c samples).1 =
      (pe.counter c x).setWidth 32) ∧
    (c.kpData = true → ∀ k, k < c.nkp → ∀ x,
      total col (kpValue k x) (collectAll c samples).1 = (pe.kp k).kpStats x) ∧
    (c.lpData = true → ∀ l, l < c.nlp → ∀ x,
      total col (lpValue l x) (collectAll c samples).1 = pe.lpStats l x)

/-- Before the last sample of each type the numbers of GVT computations at the samples of
this type add up to 0, and so does what `all_reduce_cnt` has grown by up to the samples of
the other types. -/
def SharedZero (c : EngineSetup) (samples : List EngineSample) : Prop :=
  ∀ col before pe after, samples = before ++ (col, pe) :: after →
    (∀ sample ∈ after, sample.1 ≠ col) → c.peData = true →
    (gvtCounts col before).sum = 0 ∧
      stepSum (fun col' => !decide (col' = col)) (reduceSteps 0 before) = 0

section

variable {before after : List EngineSample} {pe : EnginePe}

theorem sum_gvtCounts (hafter : ∀ sample ∈ after, sample.1 ≠ col) :
    (gvtCounts col (before ++ (col, pe) :: after)).sum =
      (gvtCounts col before).sum + pe.gvtDone := by
  have hnone : after.filter (fun sample => sample.1 = col) = [] := by
    rw [List.filter_eq_nil_iff]
    intro sample hs
    simpa using hafter sample hs
  unfold gvtCounts
  simp [List.filter_append, hnone]

theorem stepSum_reduceSteps (hafter : ∀ sample ∈ after, sample.1 ≠ col) :
    stepSum (fun col' => col' = col) (reduceSteps 0 (before ++ (col, pe) :: after)) =
      pe.allReduceCnt.setWidth 32 -
        stepSum (fun col' => !decide (col' = col)) (reduceSteps 0 before) := by
  induction after using List.reverseRecOn with
  | nil =>
      have hsum := stepSum_add_stepSum (fun col' => col' = col) (before ++ [(col, pe)])
      have hlast : lastReduce 0 (before ++ [(col, pe)]) = pe.allReduceCnt := by
        unfold lastReduce
        rw [List.foldl_append]
        rfl
      have hother : stepSum (fun col' => !decide (col' = col))
          (reduceSteps 0 (before ++ [(col, pe)])) =
            stepSum (fun col' => !decide (col' = col)) (reduceSteps 0 before) := by
        rw [reduceSteps_append, stepSum_append]
        simp [stepSum]
      rw [hother, hlast] at hsum
      exact eq_sub_of_add_eq hsum
  | append_singleton after sample ih =>
      have hne : sample.1 ≠ col := hafter sample (by simp)
      rw [← List.cons_append, ← List.append_assoc, reduceSteps_append, stepSum_append,
        ih fun s hs => hafter s (List.mem_append_left _ hs)]
      simp [stepSum, hne]

end

theorem telescopes_iff (c : EngineSetup) (samples : List EngineSample) :
    Telescopes c samples ↔ SharedZero c samples := by
  constructor
  · intro h col before pe after hsplit hafter hdata
    have hpe := (h col before pe after hsplit hafter).1 hdata
    have hgvt := hpe .sNgvts
    have hreduce := hpe .allReduceCount
    rw [total_sNgvts hdata, hsplit, sum_gvtCounts hafter] at hgvt
    rw [total_allReduceCount hdata, hsplit, stepSum_reduceSteps hafter] at hreduce
    rw [setWidth_gvtDone] at hgvt
    exact ⟨add_eq_right.mp hgvt, sub_eq_self.mp hreduce⟩
  · intro h col before pe after hsplit hafter
    refine ⟨?_, ?_, ?_⟩
    · intro hdata x
      obtain ⟨hgvt, hreduce⟩ := h col before pe after hsplit hafter hdata
      subst hsplit
      by_cases hx : x = .sNgvts
      · rw [hx, total_sNgvts hdata, sum_gvtCounts hafter, hgvt, zero_add]
        exact (setWidth_gvtDone pe).symm
      · by_cases hy : x = .allReduceCount
        · rw [hy, total_allReduceCount hdata, stepSum_reduceSteps hafter, hreduce, sub_zero]
          rfl
        · exact total_pe hdata hx hy hafter
    · intro hdata k hk x
      rw [hsplit]
      exact total_kp hdata hk x hafter
    · intro hdata l hl x
      rw [hsplit]
      exact total_lp hdata hl x hafter

/-- A rank without KPs and LPs after `n` GVT computations. -/
def idleRank (n : BitVec 32) : EnginePe :=
  ⟨0, 0, 0, 0, 0, n, 0, fun _ => ⟨0, 0, 0, 0, fun _ => 0⟩, fun _ _ => 0⟩

/-- Three samples, one for each GVT computation, report 0, 1 and 2 computations. -/
theorem gvts_counted_twice : ¬ ∀ (c : EngineSetup) (samples : List EngineSample),
    Telescopes c samples := by
  intro h
  have hgvts := (h ⟨0, 0, true, false, false⟩
    [(.gvtCol, idleRank 0), (.gvtCol, idleRank 1), (.gvtCol, idleRank 2)] .gvtCol
    [(.gvtCol, idleRank 0), (.gvtCol, idleRank 1)] (idleRank 2) [] rfl (by simp)).1 rfl .sNgvts
  revert hgvts
  decide

end Ross

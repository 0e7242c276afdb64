import Mathlib.Algebra.BigOperators.Ring.Finset
import Ross.Proofs.RioSerialize

/-!
# Storing a checkpoint

Every rank writes its parts, its records of them and its sizes to places that no other
rank touches, as long as the size of every part fits an `int`.  A rank meets its LPs in
the order of their KPs.
-/

namespace Ross

open ByteLayout ByteStore CInt

variable {T S : Type}

/-! ## The order of the KPs -/

/-- The LPs of the KPs below `m`, in the order of the loops over the KPs. -/
def kpOrder (lps : List (RioLp S)) (m : Nat) : List (RioLp S) :=
  (List.range m).flatMap (lpsOn lps)

theorem kpOrder_succ (lps : List (RioLp S)) (m : Nat) :
    kpOrder lps (m + 1) = kpOrder lps m ++ lpsOn lps m := by
  unfold kpOrder
  rw [List.range_succ, List.flatMap_append, List.flatMap_singleton]

theorem filter_kp_succ (lps : List (RioLp S)) (m : Nat) :
    (lps.filter fun lp => decide (lp.kp < m)) =
        (lps.filter fun lp => decide (lp.kp < m + 1)).filter (fun lp => decide (lp.kp < m)) ∧
      lpsOn lps m =
        (lps.filter fun lp => decide (lp.kp < m + 1)).filter (fun lp => !decide (lp.kp < m)) := by
  unfold lpsOn
  rw [List.filter_filter, List.filter_filter]
  constructor
  · refine List.filter_congr fun lp _ => ?_
    rw [Bool.eq_iff_iff, Bool.and_eq_true, decide_eq_true_eq, decide_eq_true_eq]
    omega
  · refine List.filter_congr fun lp _ => ?_
    rw [Bool.eq_iff_iff, Bool.and_eq_true, Bool.not_eq_true', decide_eq_true_eq,
      decide_eq_true_eq, decide_eq_false_iff_not]
    omega

theorem kpOrder_perm_filter (lps : List (RioLp S)) (m : Nat) :
    (kpOrder lps m).Perm (lps.filter fun lp => decide (lp.kp < m)) := by
  induction m with
  | zero =>
      rw [List.filter_eq_nil_iff.mpr fun lp _ => by simp]
      exact .nil
  | succ m ih =>
      obtain ⟨hlt, hon⟩ := filter_kp_succ lps m
      rw [kpOrder_succ, hon]
      exact (ih.append_right _).trans (hlt ▸ List.filter_append_perm _ _)

/-- The loops over the KPs meet every LP once. -/
theorem kpOrder_perm {lps : List (RioLp S)} {m : Nat} (h : ∀ lp ∈ lps, lp.kp < m) :
    (kpOrder lps m).Perm lps := by
  have hperm := kpOrder_perm_filter lps m
  rwa [List.filter_eq_self.mpr fun lp hlp => decide_eq_true (h lp hlp)] at hperm

theorem kpOrder_pairwise (lps : List (RioLp S)) (m : Nat) :
    (kpOrder lps m).Pairwise fun lp lp' => lp.kp ≤ lp'.kp := by
  have hkp : ∀ {k : Nat} {lp : RioLp S}, lp ∈ lpsOn lps k → lp.kp = k := fun h =>
    of_decide_eq_true (List.mem_filter.mp h).2
  unfold kpOrder
  rw [List.pairwise_flatMap]
  constructor
  · intro k _
    refine List.pairwise_of_forall_mem_list fun lp h lp' h' => ?_
    rw [hkp h, hkp h']
  · refine List.pairwise_lt_range.imp fun hlt lp h lp' h' => ?_
    rw [hkp h, hkp h']
    exact hlt.le

/-- LPs in the order of their KPs are those of the KPs below `m` and then the others. -/
theorem filter_append_filter {lps : List (RioLp S)}
    (h : lps.Pairwise fun lp lp' => lp.kp ≤ lp'.kp) (m : Nat) :
    (lps.filter fun lp => decide (lp.kp < m)) ++ (lps.filter fun lp => !decide (lp.kp < m)) =
      lps := by
  induction lps with
  | nil => rfl
  | cons lp lps ih =>
      obtain ⟨hhead, htail⟩ := List.pairwise_cons.mp h
      have hrest := ih htail
      by_cases hlt : lp.kp < m
      · rw [List.filter_cons_of_pos (by simpa using hlt),
          List.filter_cons_of_neg (by simpa using hlt), List.cons_append, hrest]
      · have hnone : (lps.filter fun lp => decide (lp.kp < m)) = [] := by
          refine List.filter_eq_nil_iff.mpr fun lp' hlp' => ?_
          have hle := hhead lp' hlp'
          rw [decide_eq_true_eq]
          omega
        rw [hnone, List.nil_append] at hrest
        rw [List.filter_cons_of_neg (by simpa using hlt), hnone,
          List.filter_cons_of_pos (by simpa using hlt), hrest, List.nil_append]

theorem kpOrder_eq_filter {lps : List (RioLp S)}
    (h : lps.Pairwise fun lp lp' => lp.kp ≤ lp'.kp) (m : Nat) :
    kpOrder lps m = lps.filter fun lp => decide (lp.kp < m) := by
  induction m with
  | zero =>
      rw [List.filter_eq_nil_iff.mpr fun lp _ => by simp]
      rfl
  | succ m ih =>
      obtain ⟨hlt, hon⟩ := filter_kp_succ lps m
      rw [kpOrder_succ, ih, hlt, hon]
      exact filter_append_filter (h.filter _) m

/-- The loops over the KPs meet the LPs in the order of `g_tw_lp` exactly when the LPs
stand there in the order of their KPs. -/
theorem kpOrder_eq_iff {lps : List (RioLp S)} {m : Nat} (h : ∀ lp ∈ lps, lp.kp < m) :
    kpOrder lps m = lps ↔ lps.Pairwise fun lp lp' => lp.kp ≤ lp'.kp := by
  constructor
  · intro heq
    have hsorted := kpOrder_pairwise lps m
    rwa [heq] at hsorted
  · intro hsorted
    rw [kpOrder_eq_filter hsorted]
    exact List.filter_eq_self.mpr fun lp hlp => decide_eq_true (h lp hlp)

/-! ## Parts -/

namespace RioRank

section

variable {c : RioSetup T S} (r : RioRank c)

/-- The number of bytes of a part. -/
def partLength (curKp : Nat) : Nat :=
  (lpsOn r.lps curKp).length * sizeofIoLpStore + ((lpsOn r.lps curKp).map (modelSizeOf c)).sum +
    (r.eventsOn curKp).length * (c.msgSz + sizeofIoEventStore)

theorem sumSize_eq (curKp : Nat) : r.sumSize curKp = int32 (r.partLength curKp) := rfl

theorem sumSize_of_lt {curKp : Nat} (h : r.partLength curKp < 2 ^ 31) :
    r.sumSize curKp = r.partLength curKp :=
  (int32_eq_iff _).mpr h

theorem lpCount_le (curKp : Nat) : (lpsOn r.lps curKp).length ≤ r.partLength curKp := by
  unfold partLength sizeofIoLpStore
  omega

theorem evCount_le (curKp : Nat) : (r.eventsOn curKp).length ≤ r.partLength curKp := by
  have h : (r.eventsOn curKp).length * 1 ≤
      (r.eventsOn curKp).length * (c.msgSz + sizeofIoEventStore) := by
    refine Nat.mul_le_mul_left _ ?_
    unfold sizeofIoEventStore
    omega
  unfold partLength
  omega

theorem modelSizeOf_le {curKp : Nat} {lp : RioLp S} (h : lp ∈ lpsOn r.lps curKp) :
    modelSizeOf c lp ≤ r.partLength curKp := by
  have hle := List.single_le_sum (fun _ _ => Nat.zero_le _) _
    (List.mem_map_of_mem (f := modelSizeOf c) h)
  unfold partLength
  omega

theorem mem_eventsOn {curKp : Nat} {e : RioEvent T} (h : e ∈ r.eventsOn curKp) :
    e ∈ r.buffered := by
  unfold eventsOn at h
  split at h
  · exact List.mem_reverse.mp h
  · cases h

end

section

variable [TwStime T] {c : RioSetup T S} (r : RioRank c)

/-- The buffer of a part is filled to its end. -/
theorem length_partBytes (curKp : Nat) : (r.partBytes curKp).length = r.partLength curKp := by
  have hmsg : ∀ e ∈ r.eventsOn curKp, e.msg.length = c.msgSz := fun e he =>
    r.msg_length e (r.mem_eventsOn he)
  unfold partBytes eventPart partLength
  rw [List.length_append, length_lpBytes_flatMap, length_eventBytes_flatMap c hmsg]

/-- `partBytes` fits its buffer exactly when `sum_size` has not wrapped. -/
theorem fits_iff (curKp : Nat) :
    ((r.partBytes curKp).length : Int) = r.sumSize curKp ↔ r.partLength curKp < 2 ^ 31 := by
  rw [length_partBytes, sumSize_eq, eq_comm]
  exact int32_eq_iff _

/-- The parts from `start` on when nothing wraps; part 0 begins at `base`. -/
theorem storeParts_ok (kpOffset base : Nat) {start m : Nat}
    (h : ∀ k ∈ List.range' start m, r.partLength k < 2 ^ 31) :
    r.storeParts kpOffset (base + ((List.range start).map r.partLength).sum)
        (List.range' start m) =
      .ok ((List.range' start m).map fun k =>
        ⟨base + ((List.range k).map r.partLength).sum, r.partBytes k,
          r.partition kpOffset (base + ((List.range k).map r.partLength).sum) k⟩) := by
  induction m generalizing start with
  | zero => rfl
  | succ m ih =>
      rw [List.range'_succ] at h ⊢
      have hstart := h start List.mem_cons_self
      have hih := ih fun k hk => h k (List.mem_cons_of_mem _ hk)
      have hnext : base + ((List.range start).map r.partLength).sum + (r.sumSize start).toNat =
          base + ((List.range (start + 1)).map r.partLength).sum := by
        rw [r.sumSize_of_lt hstart, Int.toNat_natCast, List.range_succ, List.map_append,
          List.sum_append, List.map_singleton, List.sum_singleton, Nat.add_assoc]
      rw [storeParts, if_neg (not_not.mpr ((r.fits_iff start).mpr hstart)), hnext, hih]
      rfl

/-- A part that is too long for an `int` stops the loop. -/
theorem lt_of_storeParts {kpOffset offset : Nat} {kps : List Nat} {parts : List StoredPart}
    (h : r.storeParts kpOffset offset kps = .ok parts) : ∀ k ∈ kps, r.partLength k < 2 ^ 31 := by
  induction kps generalizing offset parts with
  | nil => exact fun k hk => absurd hk List.not_mem_nil
  | cons k kps ih =>
      rw [storeParts] at h
      by_cases hfit : ((r.partBytes k).length : Int) = r.sumSize k
      · rw [if_neg (not_not.mpr hfit)] at h
        cases hrest : r.storeParts kpOffset (offset + (r.sumSize k).toNat) kps with
        | error e =>
            rw [hrest] at h
            cases h
        | ok rest =>
            intro k' hk'
            rcases List.mem_cons.mp hk' with rfl | hmem
            · exact (r.fits_iff k').mp hfit
            · exact ih hrest k' hmem
      · rw [if_pos hfit] at h
        cases h

end

end RioRank

/-! ## Places in the files -/

namespace RioJob

variable [TwStime T] {c : RioSetup T S} {n : Nat} (job : RioJob c n)

/-- The ranks that write into the data file of `r`. -/
def sameFile (r : Fin n) : List (Fin n) :=
  (List.finRange n).filter fun r' => decide ((job r').fileNumber = (job r).fileNumber)

/-- The number of bytes a rank writes into its data file. -/
def rankLength (r : Fin n) : Nat := ((List.range c.nkp).map (job r).partLength).sum

/-- Where the first part of a rank begins. -/
def rankOffset (r : Fin n) : Nat :=
  (((job.sameFile r).filter fun r' => decide (r' < r)).map job.rankLength).sum

/-- Where a part begins: behind the parts of the ranks before that write into the same
file and those of the KPs before. -/
def partOffset (r : Fin n) (curKp : Nat) : Nat :=
  job.rankOffset r + ((List.range curKp).map (job r).partLength).sum

/-- No part is longer than an `int` holds. -/
def SizesFit : Prop := ∀ r, ∀ k < c.nkp, (job r).partLength k < 2 ^ 31

/-- The parts of a rank. -/
def parts (r : Fin n) : List StoredPart :=
  (List.range c.nkp).map fun k =>
    ⟨job.partOffset r k, (job r).partBytes k,
      (job r).partition (kpOffset c r) (job.partOffset r k) k⟩

variable {job}

section

omit [TwStime T]

theorem contribute_eq (h : job.SizesFit) (r : Fin n) :
    (job r).contribute = (job.rankLength r : Nat) := by
  unfold RioRank.contribute rankLength
  rw [Nat.cast_list_sum, List.map_map]
  refine congrArg List.sum (List.map_congr_left fun k hk => ?_)
  exact (job r).sumSize_of_lt (h r k (List.mem_range.mp hk))

theorem dataOffset_eq (h : job.SizesFit) (r : Fin n) :
    job.dataOffset r = (job.rankOffset r : Nat) := by
  unfold dataOffset rankOffset sameFile ranksBefore
  rw [List.filter_comm, Nat.cast_list_sum, List.map_map]
  exact congrArg List.sum (List.map_congr_left fun r' _ => contribute_eq h r')

end

theorem ioStoreCheckpoint_ok (h : job.SizesFit) (r : Fin n) :
    job.ioStoreCheckpoint r = .ok (job.parts r) := by
  have hfit : ∀ k ∈ List.range' 0 c.nkp, (job r).partLength k < 2 ^ 31 := by
    intro k hk
    rw [← List.range_eq_range'] at hk
    exact h r k (List.mem_range.mp hk)
  have hstore := (job r).storeParts_ok (kpOffset c r) (job.rankOffset r) hfit
  have hnonneg : ¬ ((job.rankOffset r : Nat) : Int) < 0 := by omega
  rw [List.range_zero, List.map_nil, List.sum_nil, Nat.add_zero, ← List.range_eq_range'] at hstore
  unfold ioStoreCheckpoint
  rw [dataOffset_eq h, if_neg hnonneg, Int.toNat_natCast, hstore]
  rfl

theorem sizesFit_of_store (h : ∀ r, ∃ parts, job.ioStoreCheckpoint r = .ok parts) :
    job.SizesFit := by
  intro r k hk
  obtain ⟨parts, hparts⟩ := h r
  unfold ioStoreCheckpoint at hparts
  split at hparts
  · cases hparts
  · exact (job r).lt_of_storeParts hparts k (List.mem_range.mpr hk)

/-! ## The writes of all ranks -/

variable (job)

/-- The write of a part. -/
def dataWrite (r : Fin n) (k : Nat) : Write RioFile :=
  ⟨.data (job r).fileNumber, job.partOffset r k, (job r).partBytes k⟩

/-- The write of the records of a rank. -/
def mdWrite (r : Fin n) : Write RioFile :=
  ⟨.md, sizeofIoPartition * kpOffset c r, (job.parts r).flatMap fun p => p.md.bytes⟩

section

omit [TwStime T]

/-- The write of the sizes of a rank. -/
def lpWrite (r : Fin n) : Write RioFile :=
  ⟨.lp, 8 * job.lpOffset r, packArray 8 (job r).allLpSizes⟩

theorem allLpSizes_eq (r : Fin n) :
    (job r).allLpSizes = (kpOrder (job r).lps c.nkp).map (modelSizeOf c) := by
  unfold RioRank.allLpSizes kpOrder
  rw [List.map_flatMap]

theorem length_lpWrite (r : Fin n) : (job.lpWrite r).bytes.length = 8 * (job r).lps.length := by
  unfold lpWrite
  rw [length_packArray, allLpSizes_eq, List.length_map, (kpOrder_perm (job r).kp_lt).length_eq]

/-- A part ends where the next of its rank begins, or before. -/
theorem partOffset_add_le {r : Fin n} {k m : Nat} (h : k < m) :
    job.partOffset r k + (job r).partLength k ≤ job.partOffset r m := by
  have hle := sum_range_add_le (job r).partLength h
  unfold partOffset
  omega

/-- The parts of a rank end before those of a later rank that writes into the same file. -/
theorem rankOffset_add_le {r r' : Fin n} (hfile : (job r).fileNumber = (job r').fileNumber)
    (hlt : r < r') : job.rankOffset r + job.rankLength r ≤ job.rankOffset r' := by
  have hsame : job.sameFile r' = job.sameFile r := by
    unfold sameFile
    rw [hfile]
  have hmem : r ∈ job.sameFile r :=
    List.mem_filter.mpr ⟨List.mem_finRange r, decide_eq_true rfl⟩
  unfold rankOffset
  rw [hsame]
  exact sum_before_add_le job.rankLength hmem hlt

theorem lpWrite_apart {r r' : Fin n} (h : r < r') : (job.lpWrite r).Apart (job.lpWrite r') := by
  intro _
  rw [length_lpWrite]
  have hle := sum_before_add_le (fun r => (job r).lps.length) (List.mem_finRange r) h
  refine .inl ?_
  change 8 * job.lpOffset r + _ ≤ 8 * job.lpOffset r'
  rw [← Nat.mul_add]
  exact Nat.mul_le_mul_left _ hle

end

/-- The writes of all ranks, rank by rank. -/
def allWrites : List (Write RioFile) :=
  (List.finRange n).flatMap fun r => job.writes r (job.parts r)

theorem writes_eq (r : Fin n) :
    job.writes r (job.parts r) =
      (List.range c.nkp).map (job.dataWrite r) ++ [job.mdWrite r, job.lpWrite r] := by
  unfold writes
  congr 1
  unfold parts
  rw [List.map_map]
  rfl

theorem mem_writes {r : Fin n} {w : Write RioFile} :
    w ∈ job.writes r (job.parts r) ↔
      (∃ k < c.nkp, job.dataWrite r k = w) ∨ w = job.mdWrite r ∨ w = job.lpWrite r := by
  rw [writes_eq, List.mem_append, List.mem_map, List.mem_cons, List.mem_singleton]
  simp only [List.mem_range]

theorem length_bytes (p : IoPartition) : p.bytes.length = sizeofIoPartition := by
  unfold IoPartition.bytes
  rw [length_packArray, List.length_map]
  rfl

theorem length_mdWrite (r : Fin n) :
    (job.mdWrite r).bytes.length = sizeofIoPartition * c.nkp := by
  have hlen : ∀ l : List StoredPart,
      (l.flatMap fun p => p.md.bytes).length = sizeofIoPartition * l.length := by
    intro l
    induction l with
    | nil => rfl
    | cons p l ih =>
        rw [List.flatMap_cons, List.length_append, length_bytes, ih, List.length_cons, Nat.mul_succ,
          Nat.add_comm]
  unfold mdWrite
  rw [hlen, parts, List.length_map, List.length_range]

theorem length_dataWrite (r : Fin n) (k : Nat) :
    (job.dataWrite r k).bytes.length = (job r).partLength k :=
  (job r).length_partBytes k

theorem dataWrite_apart {r r' : Fin n} {k m : Nat} (hk : k < c.nkp)
    (h : r < r' ∨ r = r' ∧ k < m) : (job.dataWrite r k).Apart (job.dataWrite r' m) := by
  intro hfile
  rw [length_dataWrite]
  refine .inl ?_
  rcases h with hlt | ⟨rfl, hlt⟩
  · have hnum : (job r).fileNumber = (job r').fileNumber := RioFile.data.inj hfile
    have hrank := job.rankOffset_add_le hnum hlt
    have hpart : job.partOffset r k + (job r).partLength k ≤ job.partOffset r c.nkp :=
      job.partOffset_add_le hk
    calc
      job.partOffset r k + (job r).partLength k ≤ job.rankOffset r + job.rankLength r := hpart
      _ ≤ job.rankOffset r' := hrank
      _ ≤ job.partOffset r' m := Nat.le_add_right _ _
  · exact job.partOffset_add_le hlt

theorem mdWrite_apart {r r' : Fin n} (h : r < r') : (job.mdWrite r).Apart (job.mdWrite r') := by
  intro _
  rw [length_mdWrite]
  have hle := sum_before_add_le (fun _ => c.nkp) (List.mem_finRange r) h
  refine .inl ?_
  change sizeofIoPartition * kpOffset c r + _ ≤ sizeofIoPartition * kpOffset c r'
  rw [← Nat.mul_add]
  exact Nat.mul_le_mul_left _ hle

/-- No two of the writes touch the same place. -/
theorem allWrites_apart : job.allWrites.Pairwise Write.Apart := by
  unfold allWrites
  rw [List.pairwise_flatMap]
  constructor
  · intro r _
    rw [writes_eq, List.pairwise_append]
    refine ⟨?_, ?_, ?_⟩
    · rw [List.pairwise_map]
      refine List.pairwise_lt_range.imp_of_mem fun hk _ hlt => ?_
      exact job.dataWrite_apart (List.mem_range.mp hk) (.inr ⟨rfl, hlt⟩)
    · exact List.pairwise_pair.mpr fun hfile => RioFile.noConfusion hfile
    · intro w hw w' hw'
      obtain ⟨k, -, rfl⟩ := List.mem_map.mp hw
      rcases List.mem_pair.mp hw' with rfl | rfl <;> exact fun hfile => RioFile.noConfusion hfile
  · refine (List.pairwise_lt_finRange n).imp fun hlt w hw w' hw' => ?_
    rcases job.mem_writes.mp hw with ⟨k, hk, rfl⟩ | rfl | rfl <;>
      rcases job.mem_writes.mp hw' with ⟨m, -, rfl⟩ | rfl | rfl
    · exact job.dataWrite_apart hk (.inl hlt)
    · exact fun hfile => RioFile.noConfusion hfile
    · exact fun hfile => RioFile.noConfusion hfile
    · exact fun hfile => RioFile.noConfusion hfile
    · exact job.mdWrite_apart hlt
    · exact fun hfile => RioFile.noConfusion hfile
    · exact fun hfile => RioFile.noConfusion hfile
    · exact fun hfile => RioFile.noConfusion hfile
    · exact job.lpWrite_apart hlt

end RioJob

end Ross

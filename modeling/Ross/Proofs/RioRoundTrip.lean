import Mathlib.Data.ZMod.Defs
import Ross.Proofs.RioStore

/-!
# The round trip of a checkpoint

What is read does not depend on the order in which the ranks wrote.  A run that reads the
checkpoint fills `g_tw_lp` in the order of the KPs, with the function of the first type.
-/

namespace Ross

open ByteLayout ByteStore CInt

variable {T S : Type}

/-! ## The records of the parts -/

theorem intAt_packArray {xs : List Int} {i : Nat} {x : Int} (h : xs[i]? = some x) :
    intAt (packArray 4 (xs.map fun x => (x % 4294967296).toNat)) i = int32 x := by
  have hi : (xs.map fun x => (x % 4294967296).toNat)[i]? = some (x % 4294967296).toNat := by
    rw [List.getElem?_map, h, Option.map_some]
  have hlt : (x % 4294967296).toNat < 256 ^ 4 := by
    norm_num
    omega
  have hcast : (((x % 4294967296).toNat : Nat) : Int) = x % 4294967296 := by omega
  unfold intAt
  rw [take_drop_packArray hi, ofBytes_bytesOf hlt, hcast, int32_emod]

/-- A record whose fields are `int`s is read back. -/
theorem ofBytes_bytes {p : IoPartition} (hpart : int32 p.part = p.part)
    (hfile : int32 p.file = p.file) (hoffset : int32 p.offset = p.offset)
    (hsize : int32 p.size = p.size) (hlps : int32 p.lpCount = p.lpCount)
    (hevs : int32 p.evCount = p.evCount) : IoPartition.ofBytes p.bytes = p := by
  unfold IoPartition.ofBytes IoPartition.bytes
  rw [intAt_packArray (i := 0) rfl, intAt_packArray (i := 1) rfl, intAt_packArray (i := 2) rfl,
    intAt_packArray (i := 3) rfl, intAt_packArray (i := 4) rfl, intAt_packArray (i := 5) rfl,
    hpart, hfile, hoffset, hsize, hlps, hevs]

theorem ofBytes_partition {c : RioSetup T S} (r : RioRank c) (kpOffset offset curKp : Nat) :
    IoPartition.ofBytes (r.partition kpOffset offset curKp).bytes =
      r.partition kpOffset offset curKp :=
  ofBytes_bytes (int32_int32 _) ((int32_eq_iff _).mpr r.file_lt) (int32_int32 _)
    (int32_int32 _) (int32_int32 _) (int32_int32 _)

/-- The records of a rank are read back. -/
theorem readPartitions_ok {f : File} {offset : Nat} {ps : List IoPartition}
    (hps : ∀ p ∈ ps, IoPartition.ofBytes p.bytes = p)
    (h : read f offset (sizeofIoPartition * ps.length) = ps.flatMap IoPartition.bytes) :
    readPartitions f offset ps.length = ps := by
  induction ps generalizing offset with
  | nil => rfl
  | cons p ps ih =>
      have hlen := RioJob.length_bytes p
      have hrest : (ps.flatMap IoPartition.bytes).length = sizeofIoPartition * ps.length := by
        have htotal := congrArg List.length h
        rw [length_read, List.flatMap_cons, List.length_append, hlen, List.length_cons,
          Nat.mul_succ] at htotal
        omega
      have hsplit : sizeofIoPartition * (p :: ps).length =
          p.bytes.length + (ps.flatMap IoPartition.bytes).length := by
        rw [hlen, hrest, List.length_cons, Nat.mul_succ, Nat.add_comm]
      rw [hsplit, List.flatMap_cons] at h
      obtain ⟨hhead, htail⟩ := read_split h
      rw [hlen] at hhead
      rw [hlen, hrest] at htail
      have hih := ih (fun p' hp' => hps p' (List.mem_cons_of_mem _ hp')) htail
      unfold readPartitions at hih ⊢
      rw [List.length_cons, List.range_succ_eq_map, List.map_cons, List.map_map, Nat.mul_zero,
        Nat.add_zero, hhead, hps p List.mem_cons_self]
      congr 1
      rw [← hih, List.length_map, List.length_range]
      refine List.map_congr_left fun i _ => ?_
      rw [Function.comp_apply, Nat.mul_succ, Nat.add_assoc, Nat.add_comm sizeofIoPartition]

/-- The sizes of a rank are read back, part by part. -/
theorem readSizes_ok {f : File} {offset : Nat} {md : Nat → IoPartition} {sizes : Nat → List Nat}
    {ks : List Nat} (hcount : ∀ k ∈ ks, (md k).lpCount = ((sizes k).length : Nat))
    (hlt : ∀ k ∈ ks, ∀ v ∈ sizes k, v < 256 ^ 8)
    (h : read f offset (8 * (ks.flatMap sizes).length) = packArray 8 (ks.flatMap sizes)) :
    readSizes f offset (ks.map md) = ks.flatMap sizes := by
  induction ks generalizing offset with
  | nil => rfl
  | cons k ks ih =>
      have hk := hcount k List.mem_cons_self
      have hsplit : 8 * ((k :: ks).flatMap sizes).length =
          (packArray 8 (sizes k)).length + (packArray 8 (ks.flatMap sizes)).length := by
        rw [length_packArray, length_packArray, List.flatMap_cons, List.length_append, Nat.mul_add]
      rw [hsplit, List.flatMap_cons, packArray_append] at h
      obtain ⟨hhead, htail⟩ := read_split h
      rw [length_packArray] at hhead htail
      rw [length_packArray] at htail
      have hih := ih (fun k' hk' => hcount k' (List.mem_cons_of_mem _ hk'))
        (fun k' hk' => hlt k' (List.mem_cons_of_mem _ hk')) htail
      have hthis := unpackArray_packArray (hlt k List.mem_cons_self) []
      rw [List.append_nil] at hthis
      rw [List.map_cons, readSizes, hk, Int.toNat_natCast, hhead, hthis, hih, List.flatMap_cons]

/-! ## The parts -/

namespace RioRank

variable [TwStime T] {c : RioSetup T S} (r : RioRank c)

/-- The LPs of a part with what its buffer holds from their model state on. -/
def recordsOn (curKp : Nat) : List (RioLp S × List UInt8) :=
  withBuffer c (r.eventPart curKp) (lpsOn r.lps curKp)

/-- The LPs of a rank with what is behind, in the order they are read. -/
def records : List (RioLp S × List UInt8) := (List.range c.nkp).flatMap r.recordsOn

theorem records_map_fst : r.records.map Prod.fst = kpOrder r.lps c.nkp := by
  unfold records kpOrder recordsOn
  rw [List.map_flatMap]
  simp only [withBuffer_map_fst]

theorem length_recordsOn (curKp : Nat) :
    (r.recordsOn curKp).length = (lpsOn r.lps curKp).length :=
  length_withBuffer c _ _

omit [TwStime T] in
/-- An LP of the rank is found by its gid. -/
theorem local_of_mem {e : RioEvent T} (he : e ∈ r.buffered) :
    r.globalToLocal ((r.lps.map (·.gid)).getD e.srcLp 0) = e.srcLp := by
  have hlt := r.src_lt e he
  have hgid : (r.lps.map (·.gid)).getD e.srcLp 0 = r.lps[e.srcLp].gid := by
    rw [List.getD_eq_getElem _ _ (by rwa [List.length_map]), List.getElem_map]
  rw [hgid]
  exact r.local_eq _ _ (List.getElem?_eq_getElem hlt)

/-- The events of a part are read as they were, on the clock of the new run. -/
theorem loadEvents_eventPart (curKp : Nat) :
    loadEvents c r.globalToLocal (r.eventsOn curKp).length (r.eventPart curKp) =
      (r.eventsOn curKp).map (rebased c) :=
  loadEvents_ok c (fun _ he => r.local_of_mem (r.mem_eventsOn he))
    fun e he => r.msg_length e (r.mem_eventsOn he)

/-- The loop over the parts, when each part is found where its record says. -/
theorem loadParts_ok (files : RioFile → File) (kpOffset : Nat) {offset : Nat → Nat}
    {ks : List Nat} {old : List (RioLp S)} {free : Nat}
    (hsize : ∀ k ∈ ks, r.partLength k < 2 ^ 31) (hoffset : ∀ k ∈ ks, offset k < 2 ^ 31)
    (hread : ∀ k ∈ ks,
      read (files (.data r.fileNumber)) (offset k) (r.partLength k) = r.partBytes k)
    (hold : old.length = (ks.flatMap r.recordsOn).length)
    (hfree : (ks.flatMap r.eventsOn).length ≤ free) :
    loadParts c r.globalToLocal files (ks.map fun k => r.partition kpOffset (offset k) k) old
        (ks.flatMap fun k => (lpsOn r.lps k).map (modelSizeOf c)) free =
      .ok (List.zipWith (loadedLp c) (ks.flatMap r.recordsOn) old,
        (ks.flatMap r.eventsOn).map (rebased c)) := by
  induction ks generalizing old free with
  | nil => rfl
  | cons k ks ih =>
      have hk := List.mem_cons_self (a := k) (l := ks)
      have hsz := hsize k hk
      have hlpCount : (r.partition kpOffset (offset k) k).lpCount =
          ((lpsOn r.lps k).length : Nat) :=
        (int32_eq_iff _).mpr (lt_of_le_of_lt (r.lpCount_le k) hsz)
      have hevCount : (r.partition kpOffset (offset k) k).evCount =
          ((r.eventsOn k).length : Nat) :=
        (int32_eq_iff _).mpr (lt_of_le_of_lt (r.evCount_le k) hsz)
      have hpartSize : (r.partition kpOffset (offset k) k).size = (r.partLength k : Nat) :=
        r.sumSize_of_lt hsz
      have hpartOffset : (r.partition kpOffset (offset k) k).offset = (offset k : Nat) :=
        (int32_eq_iff _).mpr (hoffset k hk)
      have hfile : (r.partition kpOffset (offset k) k).file.toNat = r.fileNumber :=
        Int.toNat_natCast _
      rw [List.flatMap_cons, List.length_append, length_recordsOn] at hold
      rw [List.flatMap_cons, List.length_append] at hfree
      obtain ⟨old₁, old₂, rfl, hold₁, hold₂⟩ :
          ∃ old₁ old₂, old = old₁ ++ old₂ ∧ old₁.length = (lpsOn r.lps k).length ∧
            old₂.length = (ks.flatMap r.recordsOn).length := by
        refine ⟨old.take (lpsOn r.lps k).length, old.drop (lpsOn r.lps k).length,
          (List.take_append_drop _ _).symm, ?_, ?_⟩
        · rw [List.length_take]
          omega
        · rw [List.length_drop]
          omega
      have hfree' : (ks.flatMap r.eventsOn).length ≤ free - (r.eventsOn k).length := by omega
      have hlps := loadLps_ok c old₂ (ks.flatMap fun k => (lpsOn r.lps k).map (modelSizeOf c))
        (r.eventPart k) hold₁
      have hih := ih (fun k' hk' => hsize k' (List.mem_cons_of_mem _ hk'))
        (fun k' hk' => hoffset k' (List.mem_cons_of_mem _ hk'))
        (fun k' hk' => hread k' (List.mem_cons_of_mem _ hk')) hold₂ hfree'
      rw [List.map_cons, List.flatMap_cons, List.flatMap_cons, List.flatMap_cons, loadParts,
        hlpCount, hevCount, hpartSize, hpartOffset, hfile, if_neg (by omega), Int.toNat_natCast,
        Int.toNat_natCast, Int.toNat_natCast, Int.toNat_natCast, hread k hk, partBytes, hlps]
      dsimp only
      rw [if_neg (by omega), hih]
      dsimp only
      rw [r.loadEvents_eventPart k, List.map_append]
      have hzip : List.zipWith (loadedLp c) (r.recordsOn k ++ ks.flatMap r.recordsOn)
          (old₁ ++ old₂) =
        List.zipWith (loadedLp c) (r.recordsOn k) old₁ ++
          List.zipWith (loadedLp c) (ks.flatMap r.recordsOn) old₂ :=
        List.zipWith_append (by rw [hold₁, length_recordsOn])
      rw [hzip]
      rfl

end RioRank

/-! ## Reading a checkpoint -/

/-- The LPs of a run that reads the checkpoint of `job` and has its layout, as the ranks
have initialized them. -/
structure Restart [TwStime T] {c : RioSetup T S} {n : Nat} (job : RioJob c n) where
  lps : Fin n → List (RioLp S)
  layout : ∀ r, (lps r).map (fun lp => (lp.gid, lp.kp)) =
    (job r).lps.map fun lp => (lp.gid, lp.kp)

namespace RioJob

variable [TwStime T] {c : RioSetup T S} {n : Nat} {job : RioJob c n}

omit [TwStime T] in
theorem eventsOn_flatMap (r : RioRank c) :
    (List.range c.nkp).flatMap r.eventsOn = r.buffered.reverse := by
  have hrest : ∀ m, (List.range m).flatMap (fun k => r.eventsOn (k + 1)) = [] := by
    intro m
    rw [List.flatMap_eq_nil_iff]
    intro k _
    exact if_neg (Nat.succ_ne_zero k)
  cases hnkp : c.nkp with
  | zero =>
      -- without a KP there is no LP, and without an LP no event
      have hlps : r.lps = [] := by
        refine List.eq_nil_iff_forall_not_mem.mpr fun lp hlp => ?_
        have hkp := r.kp_lt lp hlp
        omega
      have hbuf : r.buffered = [] := by
        refine List.eq_nil_iff_forall_not_mem.mpr fun e he => ?_
        have hsrc := r.src_lt e he
        rw [hlps, List.length_nil] at hsrc
        omega
      rw [hbuf]
      rfl
  | succ m =>
      rw [List.range_succ_eq_map, List.flatMap_cons, List.flatMap_map]
      have hzero : r.eventsOn 0 = r.buffered.reverse := if_pos rfl
      rw [hzero]
      simp only [Nat.succ_eq_add_one, hrest, List.append_nil]

theorem length_restart (restart : Restart job) (r : Fin n) :
    (restart.lps r).length = (job r).lps.length := by
  have h := congrArg List.length (restart.layout r)
  rwa [List.length_map, List.length_map] at h

theorem length_records (r : RioRank c) : r.records.length = r.lps.length := by
  rw [← List.length_map (f := Prod.fst), r.records_map_fst, (kpOrder_perm r.kp_lt).length_eq]

/-- The sum that the reader compares with `g_tw_nlp`. -/
theorem sum_lpCount (hsize : job.SizesFit) (r : Fin n) :
    (((job.parts r).map fun p => p.md).map (·.lpCount)).sum = ((job r).lps.length : Nat) := by
  have hlen : (job r).lps.length =
      ((List.range c.nkp).map fun k => (lpsOn (job r).lps k).length).sum := by
    rw [← (kpOrder_perm (job r).kp_lt).length_eq, kpOrder, List.length_flatMap]
  rw [hlen, Nat.cast_list_sum, List.map_map, List.map_map, parts, List.map_map]
  refine congrArg List.sum (List.map_congr_left fun k hk => ?_)
  exact (int32_eq_iff _).mpr
    (lt_of_le_of_lt ((job r).lpCount_le k) (hsize r k (List.mem_range.mp hk)))

/-- What a rank reads, in whatever order the ranks wrote and over whatever files. -/
theorem ioReadCheckpoint_eq (restart : Restart job) (hsize : job.SizesFit)
    (hoffset : ∀ r, ∀ k < c.nkp, job.partOffset r k < 2 ^ 31) (fs : RioFile → File)
    {ws : List (Write RioFile)} (hws : ws.Perm job.allWrites) (r : Fin n) :
    job.ioReadCheckpoint r (restart.lps r) (applyAll fs ws) =
      if (job r).lps.length < 2 ^ 31 then
        .ok (List.zipWith (loadedLp c) (job r).records (restart.lps r),
          (job r).buffered.reverse.map (rebased c))
      else .error .wrongNumberOfLps := by
  have hwritten : ∀ w ∈ job.writes r (job.parts r),
      read (applyAll fs ws w.file) w.offset w.bytes.length = w.bytes := by
    intro w hw
    refine read_of_perm job.allWrites_apart hws ?_
    exact List.mem_flatMap.mpr ⟨r, List.mem_finRange r, hw⟩
  -- the three files
  have hmd := hwritten (job.mdWrite r) (job.mem_writes.mpr (.inr (.inl rfl)))
  have hlp := hwritten (job.lpWrite r) (job.mem_writes.mpr (.inr (.inr rfl)))
  have hdata : ∀ k ∈ List.range c.nkp, read (applyAll fs ws (.data (job r).fileNumber))
      (job.partOffset r k) ((job r).partLength k) = (job r).partBytes k := by
    intro k hk
    have h := hwritten (job.dataWrite r k)
      (job.mem_writes.mpr (.inl ⟨k, List.mem_range.mp hk, rfl⟩))
    rwa [length_dataWrite] at h
  have hparts : readPartitions (applyAll fs ws .md) (sizeofIoPartition * kpOffset c r) c.nkp =
      (job.parts r).map fun p => p.md := by
    have hlen : ((job.parts r).map fun p => p.md).length = c.nkp := by
      rw [parts, List.length_map, List.length_map, List.length_range]
    rw [length_mdWrite, ← hlen] at hmd
    rw [← hlen]
    refine readPartitions_ok ?_ ?_
    · intro p hp
      obtain ⟨q, hq, rfl⟩ := List.mem_map.mp hp
      obtain ⟨k, -, rfl⟩ := List.mem_map.mp hq
      exact ofBytes_partition _ _ _ _
    · rw [List.flatMap_map]
      exact hmd
  have hmdOf : (job.parts r).map (fun p => p.md) = (List.range c.nkp).map fun k =>
      (job r).partition (kpOffset c r) (job.partOffset r k) k := by
    rw [parts, List.map_map]
    rfl
  have hsizes : readSizes (applyAll fs ws .lp) (8 * job.lpOffset r)
      ((job.parts r).map fun p => p.md) = (job r).allLpSizes := by
    rw [hmdOf]
    refine readSizes_ok ?_ ?_ ?_
    · intro k hk
      rw [List.length_map]
      exact (int32_eq_iff _).mpr
        (lt_of_le_of_lt ((job r).lpCount_le k) (hsize r k (List.mem_range.mp hk)))
    · intro k hk v hv
      obtain ⟨lp, hlp', rfl⟩ := List.mem_map.mp hv
      have hle := (job r).modelSizeOf_le hlp'
      have hlt := hsize r k (List.mem_range.mp hk)
      norm_num
      omega
    · have hbytes : (job.lpWrite r).bytes.length = 8 * (job r).allLpSizes.length := by
        rw [lpWrite, length_packArray]
      rw [hbytes] at hlp
      exact hlp
  have hold : (restart.lps r).length = (job r).records.length :=
    (length_restart restart r).trans (length_records (job r)).symm
  have hfree : ((List.range c.nkp).flatMap (job r).eventsOn).length ≤ c.eventsBuffered := by
    rw [eventsOn_flatMap, List.length_reverse]
    exact (job r).buffered_le
  have hload := (job r).loadParts_ok (applyAll fs ws) (kpOffset c r)
    (fun k hk => hsize r k (List.mem_range.mp hk))
    (fun k hk => hoffset r k (List.mem_range.mp hk)) hdata hold hfree
  unfold ioReadCheckpoint
  dsimp only
  rw [hparts, sum_lpCount hsize, hsizes, length_restart]
  by_cases hcount : (job r).lps.length < 2 ^ 31
  · rw [if_neg (not_not.mpr ((int32_eq_iff _).mpr hcount)), if_pos hcount, hmdOf]
    rw [eventsOn_flatMap] at hload
    exact hload
  · rw [if_pos fun h => hcount ((int32_eq_iff _).mp h), if_neg hcount]

/-! ## The round trip -/

variable (job)

/-- Every rank stores its checkpoint, with the offsets of its parts as they are, and a run
of the same layout that reads it, in whatever order the ranks wrote and over whatever
files, has at the place of each gid the LP with the state it had, and the buffered events
on its own clock. -/
def RoundTrips (restart : Restart job) : Prop :=
  ∃ parts : Fin n → List StoredPart,
    (∀ r, job.ioStoreCheckpoint r = .ok (parts r)) ∧
    (∀ r, ∀ p ∈ parts r, p.md.offset = p.offset) ∧
    ∀ (fs : RioFile → File) (ws : List (Write RioFile)),
      ws.Perm ((List.finRange n).flatMap fun r => job.writes r (parts r)) →
      ∀ r, ∃ lps events,
        job.ioReadCheckpoint r (restart.lps r) (applyAll fs ws) = .ok (lps, events) ∧
        (∀ lp ∈ (job r).lps, ∃ lp', lps[(job r).globalToLocal lp.gid]? = some lp' ∧
          lp'.gid = lp.gid ∧ lp'.curState = lp.curState) ∧
        events.Perm ((job r).buffered.map (rebased c))

/-- The LPs stand in `g_tw_lp` in the order of their KPs, the function of the first type
finds the state of every LP in what the type of the LP wrote, and the sizes, offsets and
counts are values of an `int`. -/
structure Readable (restart : Restart job) : Prop where
  inOrder : ∀ r, (job r).lps.Pairwise fun lp lp' => lp.kp ≤ lp'.kp
  firstType : ∀ r, List.Forall₂
    (fun p lp => (c.ioLpTypes 0).deserialize p.1.gid lp.curState p.2 = p.1.curState)
    (job r).records (restart.lps r)
  sizes : ∀ r, ∀ k < c.nkp, (job r).partLength k < 2 ^ 31
  offsets : ∀ r, ∀ k < c.nkp, job.partOffset r k < 2 ^ 31
  counts : ∀ r, (job r).lps.length < 2 ^ 31

variable {job} {restart : Restart job}

/-- The LP that the record at the place `i` is read into. -/
theorem getElem?_loaded (restart : Restart job) {r : Fin n} {i : Nat} {lp : RioLp S}
    (hlp : (job r).lps[i]? = some lp) :
    ∃ p old, (job r).records[i]? = some p ∧ (restart.lps r)[i]? = some old ∧
      (kpOrder (job r).lps c.nkp)[i]? = some p.1 ∧
      (List.zipWith (loadedLp c) (job r).records (restart.lps r))[i]? =
        some (loadedLp c p old) := by
  have hi := (List.getElem?_eq_some_iff.mp hlp).1
  have hp : i < (job r).records.length := by rwa [length_records]
  have hold : i < (restart.lps r).length := by rwa [length_restart]
  refine ⟨(job r).records[i], (restart.lps r)[i], List.getElem?_eq_getElem hp,
    List.getElem?_eq_getElem hold, ?_, ?_⟩
  · rw [← RioRank.records_map_fst, List.getElem?_map, List.getElem?_eq_getElem hp]
    rfl
  · rw [List.getElem?_zipWith, List.getElem?_eq_getElem hp, List.getElem?_eq_getElem hold]

omit [TwStime T] in
/-- An LP of a rank is known by its gid. -/
theorem eq_of_gid {r : RioRank c} {lp lp' : RioLp S} (hlp : lp ∈ r.lps) (hlp' : lp' ∈ r.lps)
    (h : lp.gid = lp'.gid) : lp = lp' := by
  obtain ⟨i, hi⟩ := List.getElem?_of_mem hlp
  obtain ⟨j, hj⟩ := List.getElem?_of_mem hlp'
  have hij : i = j := by
    rw [← r.local_eq i lp hi, ← r.local_eq j lp' hj, h]
  rw [hij, hj] at hi
  exact (Option.some.inj hi).symm

theorem roundTrips_of_readable (h : job.Readable restart) : job.RoundTrips restart := by
  refine ⟨job.parts, ioStoreCheckpoint_ok h.sizes, ?_, ?_⟩
  · intro r p hp
    obtain ⟨k, hk, rfl⟩ := List.mem_map.mp hp
    exact (int32_eq_iff _).mpr (h.offsets r k (List.mem_range.mp hk))
  · intro fs ws hws r
    have hread := ioReadCheckpoint_eq restart h.sizes h.offsets fs hws r
    rw [if_pos (h.counts r)] at hread
    refine ⟨_, _, hread, ?_, (List.reverse_perm _).map _⟩
    intro lp hlp
    obtain ⟨i, hi⟩ := List.getElem?_of_mem hlp
    obtain ⟨p, old, hp, hold, hkp, hloaded⟩ := getElem?_loaded restart hi
    rw [(kpOrder_eq_iff (job r).kp_lt).mpr (h.inOrder r), hi] at hkp
    have hlp : lp = p.1 := Option.some.inj hkp
    obtain ⟨hi₁, rfl⟩ := List.getElem?_eq_some_iff.mp hp
    obtain ⟨hi₂, rfl⟩ := List.getElem?_eq_some_iff.mp hold
    have hstate := (h.firstType r).get hi₁ hi₂
    refine ⟨loadedLp c (job r).records[i] (restart.lps r)[i], ?_, ?_, ?_⟩
    · rw [(job r).local_eq i lp hi]
      exact hloaded
    · rw [hlp]
      rfl
    · rw [hlp]
      exact hstate

theorem readable_of_roundTrips (h : job.RoundTrips restart) : job.Readable restart := by
  obtain ⟨parts, hstore, hmd, hread⟩ := h
  have hsizes : job.SizesFit := sizesFit_of_store fun r => ⟨parts r, hstore r⟩
  obtain rfl : parts = job.parts := by
    funext r
    have hok := hstore r
    rw [ioStoreCheckpoint_ok hsizes] at hok
    exact (Except.ok.inj hok).symm
  have hoffsets : ∀ r, ∀ k < c.nkp, job.partOffset r k < 2 ^ 31 := by
    intro r k hk
    exact (int32_eq_iff _).mp (hmd r _ (List.mem_map_of_mem (List.mem_range.mpr hk)))
  -- one order of the writes is enough
  have hloaded : ∀ r, (job r).lps.length < 2 ^ 31 ∧ ∀ lp ∈ (job r).lps, ∃ lp',
      (List.zipWith (loadedLp c) (job r).records (restart.lps r))[(job r).globalToLocal lp.gid]? =
        some lp' ∧ lp'.gid = lp.gid ∧ lp'.curState = lp.curState := by
    intro r
    obtain ⟨lps, events, hok, hlps, -⟩ := hread (fun _ _ => 0) job.allWrites (List.Perm.refl _) r
    rw [ioReadCheckpoint_eq restart hsizes hoffsets _ (List.Perm.refl _)] at hok
    split at hok
    · rename_i hcount
      cases hok
      exact ⟨hcount, hlps⟩
    · cases hok
  have hat : ∀ r (i : Nat) lp, (job r).lps[i]? = some lp → ∃ p old,
      (job r).records[i]? = some p ∧ (restart.lps r)[i]? = some old ∧ p.1 = lp ∧
        (kpOrder (job r).lps c.nkp)[i]? = some lp ∧
        (c.ioLpTypes 0).deserialize p.1.gid old.curState p.2 = p.1.curState := by
    intro r i lp hlp
    obtain ⟨p, old, hp, hold, hkp, hz⟩ := getElem?_loaded restart hlp
    obtain ⟨lp', hlp', hgid, hstate⟩ := (hloaded r).2 lp (List.mem_of_getElem? hlp)
    rw [(job r).local_eq i lp hlp, hz] at hlp'
    obtain rfl := Option.some.inj hlp'
    have hmem : p.1 ∈ (job r).lps :=
      (kpOrder_perm (job r).kp_lt).mem_iff.mp (List.mem_of_getElem? hkp)
    have hp₁ : p.1 = lp := eq_of_gid hmem (List.mem_of_getElem? hlp) hgid
    refine ⟨p, old, hp, hold, hp₁, hp₁ ▸ hkp, ?_⟩
    exact hstate.trans (congrArg RioLp.curState hp₁.symm)
  refine ⟨?_, ?_, hsizes, hoffsets, fun r => (hloaded r).1⟩
  · intro r
    rw [← kpOrder_eq_iff (job r).kp_lt]
    refine List.ext_getElem? fun i => ?_
    cases hlp : (job r).lps[i]? with
    | some lp =>
        obtain ⟨p, old, -, -, -, hkp, -⟩ := hat r i lp hlp
        exact hkp
    | none =>
        rw [List.getElem?_eq_none_iff] at hlp ⊢
        rwa [(kpOrder_perm (job r).kp_lt).length_eq]
  · intro r
    refine List.forall₂_iff_get.mpr ⟨?_, fun i hi hi' => ?_⟩
    · rw [length_records, length_restart]
    · have hlt : i < (job r).lps.length := by rwa [length_records] at hi
      obtain ⟨p, old, hp, hold, -, -, hstate⟩ := hat r i _ (List.getElem?_eq_getElem hlt)
      obtain ⟨_, rfl⟩ := List.getElem?_eq_some_iff.mp hp
      obtain ⟨_, rfl⟩ := List.getElem?_eq_some_iff.mp hold
      exact hstate

/-- A checkpoint is read back exactly when the LPs stand in the order of their KPs, the
function of the first type reads what each of them wrote, and no `int` overflows. -/
theorem roundTrips_iff (job : RioJob c n) (restart : Restart job) :
    job.RoundTrips restart ↔ job.Readable restart :=
  ⟨readable_of_roundTrips, roundTrips_of_readable⟩

/-- LPs of the first type are read by their own function. -/
theorem firstType_of_typemap (restart : Restart job) {r : Fin n}
    (h : ∀ lp ∈ (job r).lps, c.lpTypemap lp.gid = 0) :
    List.Forall₂
      (fun p lp => (c.ioLpTypes 0).deserialize p.1.gid lp.curState p.2 = p.1.curState)
      (job r).records (restart.lps r) := by
  refine List.forall₂_of_length_eq_of_get ?_ fun i hi hi' => ?_
  · rw [length_records, length_restart]
  · have hmem := List.get_mem (job r).records ⟨i, hi⟩
    obtain ⟨k, -, hk⟩ := List.mem_flatMap.mp hmem
    obtain ⟨rest, hrest⟩ := exists_of_mem_withBuffer c hk
    have hlp : ((job r).records.get ⟨i, hi⟩).1 ∈ (job r).lps := by
      refine (kpOrder_perm (job r).kp_lt).mem_iff.mp ?_
      rw [← RioRank.records_map_fst]
      exact List.mem_map_of_mem hmem
    have htype := h _ hlp
    rw [hrest, modelBytes, lpType, htype]
    exact (c.ioLpTypes 0).inverse ..

end RioJob

/-! ## Two types -/

instance : TwStime (Fin (2 ^ 64)) where
  stimeMax := Fin.last _

/-- The state is one byte. -/
def plainType : IoLptype UInt8 where
  modelSize _ _ := 1
  serialize _ st := [st]
  deserialize _ _ b := b.getD 0 0
  size _ _ := rfl
  inverse _ _ _ _ := rfl

/-- A byte comes before the state. -/
def taggedType : IoLptype UInt8 where
  modelSize _ _ := 2
  serialize _ st := [1, st]
  deserialize _ _ b := b.getD 1 0
  size _ _ := rfl
  inverse _ _ _ _ := rfl

def twoTypes : RioSetup (Fin (2 ^ 64)) UInt8 where
  nkp := 1
  ioLpTypes i := if i = 0 then plainType else taggedType
  lpTypemap _ := 1
  msgSz := 0
  tsEnd := 0
  eventsBuffered := 0
  toBits := BitVec.ofFin
  ofBits := BitVec.toFin
  ofBits_toBits _ := rfl

def zeroStream : RngStream := ⟨fun _ => 0, fun _ => 0, fun _ => 0⟩

/-- One rank with one LP, of the second type, in the state 7. -/
def taggedJob : RioJob twoTypes 1 := fun _ =>
  { lps := [⟨0, 0, zeroStream, 0, 7⟩]
    fileNumber := 0
    buffered := []
    globalToLocal := fun _ => 0
    kp_lt := fun lp h => by
      rw [List.mem_singleton.mp h]
      exact Nat.zero_lt_one
    local_eq := fun i lp h => by
      obtain ⟨hi, -⟩ := List.getElem?_eq_some_iff.mp h
      exact (Nat.lt_one_iff.mp hi).symm
    file_lt := by norm_num
    buffered_le := Nat.le_refl 0
    msg_length := fun _ h => absurd h List.not_mem_nil
    src_lt := fun _ h => absurd h List.not_mem_nil }

def taggedRestart : Restart taggedJob := ⟨fun _ => [⟨0, 0, zeroStream, 0, 0⟩], fun _ => rfl⟩

/-- The LP comes back in the state 1. -/
theorem not_roundTrips_taggedJob : ¬ taggedJob.RoundTrips taggedRestart := by
  intro h
  have hfirst := (RioJob.readable_of_roundTrips h).firstType 0
  have hrecords : (taggedJob 0).records = [(⟨0, 0, zeroStream, 0, 7⟩, [1, 7])] := rfl
  rw [hrecords] at hfirst
  cases hfirst with
  | cons hstate _ => exact absurd hstate (by decide)

end Ross

import Ross.Core.RioCheckpoint

/-!
# Loading what was stored

The functions of `rio/io-serialize.c` undo each other, and so do the loop that fills the
buffer of a part and the two loops that read it: the LPs of a part come back in the order
they were written, each with the state that the first type's function finds.
-/

namespace Ross

open ByteLayout CInt

/-! ## LPs -/

section

variable {S : Type}

theorem RngStream.store_ig (r : RngStream) (j : Fin 4) (h : j.val < 12) :
    r.store ⟨j, h⟩ = r.ig j := dif_pos j.isLt

theorem RngStream.store_lg (r : RngStream) (j : Fin 4) (h : j.val + 4 < 12) :
    r.store ⟨j + 4, h⟩ = r.lg j := by
  have hlt : j.val + 4 < 8 := by omega
  unfold RngStream.store
  rw [dif_neg (by simp), dif_pos hlt]
  rfl

theorem RngStream.store_cg (r : RngStream) (j : Fin 4) (h : j.val + 8 < 12) :
    r.store ⟨j + 8, h⟩ = r.cg j := by
  unfold RngStream.store
  rw [dif_neg (by simp), dif_neg (by simp)]
  rfl

theorem ofNat_toNat {w : Nat} (x : BitVec w) : BitVec.ofNat w x.toNat = x :=
  (BitVec.ofNat_toNat w x).trans (BitVec.setWidth_eq x)

/-- The array `rng` of an `io_lp_store` as numbers. -/
def RngStream.fields (r : RngStream) : List Nat := List.ofFn fun i => (r.store i).toNat

theorem RngStream.length_fields (r : RngStream) : r.fields.length = 12 := List.length_ofFn

/-- The fields of an `io_lp_store` as numbers. -/
def lpFields (lp : RioLp S) : List Nat :=
  lp.gid.toNat :: lp.rng.fields ++ [lp.criticalPath.toNat, 0]

theorem lpFields_fit (lp : RioLp S) :
    List.Forall₂ (fun w v => v < 256 ^ w) ioLpStore (lpFields lp) := by
  have hrng : List.Forall₂ (fun w v => v < 256 ^ w) (List.replicate 12 4) lp.rng.fields := by
    rw [← lp.rng.length_fields]
    refine forall₂_replicate fun v hv => ?_
    obtain ⟨i, rfl⟩ := List.mem_ofFn.mp hv
    exact (lp.rng.store i).isLt
  have htail : List.Forall₂ (fun w v => v < 256 ^ w) [4, 4] [lp.criticalPath.toNat, 0] :=
    .cons lp.criticalPath.isLt (.cons (by norm_num) .nil)
  exact .cons lp.gid.isLt (List.rel_append hrng htail)

theorem length_ioLpSerialize (lp : RioLp S) : (ioLpSerialize lp).length = sizeofIoLpStore :=
  length_pack (lpFields_fit lp)

theorem lpFields_rng (lp : RioLp S) {i : Nat} (hi : i < 12) :
    BitVec.ofNat 32 ((lpFields lp).getD (i + 1) 0) = lp.rng.store ⟨i, hi⟩ := by
  have hlen := lp.rng.length_fields
  unfold lpFields
  rw [List.cons_append, List.getD_cons_succ, List.getD_append _ _ _ _ (by omega),
    List.getD_eq_getElem _ _ (by omega)]
  simp only [RngStream.fields, List.getElem_ofFn]
  exact ofNat_toNat _

theorem lpFields_criticalPath (lp : RioLp S) :
    BitVec.ofNat 32 ((lpFields lp).getD 13 0) = lp.criticalPath := by
  have hlen := lp.rng.length_fields
  unfold lpFields
  rw [List.cons_append, List.getD_cons_succ, List.getD_append_right _ _ _ _ (by omega), hlen]
  exact ofNat_toNat _

/-- `io_lp_deserialize` undoes `io_lp_serialize`, whatever comes behind. -/
theorem ioLpDeserialize_serialize (lp old : RioLp S) (rest : List UInt8) :
    ioLpDeserialize old (ioLpSerialize lp ++ rest) =
      { lp with kp := old.kp, curState := old.curState } := by
  have htmp : unpack ioLpStore (ioLpSerialize lp ++ rest) = lpFields lp :=
    unpack_pack (lpFields_fit lp) rest
  have hig : ∀ j : Fin 4, BitVec.ofNat 32 ((lpFields lp).getD (j + 1) 0) = lp.rng.ig j := by
    intro j
    rw [lpFields_rng lp (by omega), RngStream.store_ig]
  have hlg : ∀ j : Fin 4, BitVec.ofNat 32 ((lpFields lp).getD (j + 4 + 1) 0) = lp.rng.lg j := by
    intro j
    rw [lpFields_rng lp (by omega), RngStream.store_lg]
  have hcg : ∀ j : Fin 4, BitVec.ofNat 32 ((lpFields lp).getD (j + 8 + 1) 0) = lp.rng.cg j := by
    intro j
    rw [lpFields_rng lp (by omega), RngStream.store_cg]
  have hgid : BitVec.ofNat 64 ((lpFields lp).getD 0 0) = lp.gid := ofNat_toNat _
  unfold ioLpDeserialize
  simp only [htmp, hig, hlg, hcg, hgid, lpFields_criticalPath]

end

/-! ## Events -/

section

variable {T S : Type} [TwStime T] (c : RioSetup T S)

/-- An event on the clock of a run that starts at `g_tw_ts_end`. -/
def rebased (e : RioEvent T) : RioEvent T := { e with recvTs := e.recvTs - c.tsEnd }

/-- The fields of an `io_event_store` as numbers. -/
def eventFields (gids : List (BitVec 64)) (e : RioEvent T) : List Nat :=
  [e.cv.toNat, e.criticalPath.toNat, e.destLp.toNat, (gids.getD e.srcLp 0).toNat,
    (c.toBits (e.recvTs - c.tsEnd)).toNat]

theorem eventFields_fit (gids : List (BitVec 64)) (e : RioEvent T) :
    List.Forall₂ (fun w v => v < 256 ^ w) ioEventStore (eventFields c gids e) :=
  .cons e.cv.isLt (.cons e.criticalPath.isLt (.cons e.destLp.isLt
    (.cons (gids.getD e.srcLp 0).isLt (.cons (c.toBits (e.recvTs - c.tsEnd)).isLt .nil))))

theorem length_ioEventSerialize (gids : List (BitVec 64)) (e : RioEvent T) :
    (ioEventSerialize c gids e).length = sizeofIoEventStore :=
  length_pack (eventFields_fit c gids e)

theorem length_eventBytes {gids : List (BitVec 64)} {e : RioEvent T}
    (hmsg : e.msg.length = c.msgSz) :
    (eventBytes c gids e).length = sizeofIoEventStore + c.msgSz := by
  unfold eventBytes
  rw [List.length_append, length_ioEventSerialize, hmsg]

theorem length_eventBytes_flatMap {gids : List (BitVec 64)} {es : List (RioEvent T)}
    (hmsg : ∀ e ∈ es, e.msg.length = c.msgSz) :
    (es.flatMap (eventBytes c gids)).length = es.length * (c.msgSz + sizeofIoEventStore) := by
  induction es with
  | nil => rw [List.flatMap_nil, List.length_nil, List.length_nil, Nat.zero_mul]
  | cons e es ih =>
      rw [List.flatMap_cons, List.length_append, length_eventBytes c (hmsg e List.mem_cons_self),
        ih fun e' he' => hmsg e' (List.mem_cons_of_mem _ he'), List.length_cons, Nat.add_mul]
      omega

/-- `io_event_deserialize` gives back the event, its time counted from `g_tw_ts_end`. -/
theorem ioEventDeserialize_serialize {gids : List (BitVec 64)} {globalToLocal : BitVec 64 → Nat}
    {e : RioEvent T} (hsrc : globalToLocal (gids.getD e.srcLp 0) = e.srcLp)
    (hmsg : e.msg.length = c.msgSz) (rest : List UInt8) :
    ioEventDeserialize c globalToLocal (eventBytes c gids e ++ rest) = rebased c e := by
  have htmp : unpack ioEventStore (ioEventSerialize c gids e ++ (e.msg ++ rest)) =
      eventFields c gids e := unpack_pack (eventFields_fit c gids e) _
  have hcv : BitVec.ofNat 32 ((eventFields c gids e).getD 0 0) = e.cv :=
    ofNat_toNat _
  have hpath : BitVec.ofNat 32 ((eventFields c gids e).getD 1 0) = e.criticalPath :=
    ofNat_toNat _
  have hdest : BitVec.ofNat 64 ((eventFields c gids e).getD 2 0) = e.destLp :=
    ofNat_toNat _
  have hsource : BitVec.ofNat 64 ((eventFields c gids e).getD 3 0) = gids.getD e.srcLp 0 :=
    ofNat_toNat _
  have hts : BitVec.ofNat 64 ((eventFields c gids e).getD 4 0) =
      c.toBits (e.recvTs - c.tsEnd) := ofNat_toNat _
  unfold eventBytes ioEventDeserialize
  rw [List.append_assoc, List.drop_left' (length_ioEventSerialize c gids e),
    List.take_left' hmsg]
  simp only [htmp, hcv, hpath, hdest, hsource, hts, hsrc, c.ofBits_toBits]
  rfl

/-- The loop over the events of a part reads what was written. -/
theorem loadEvents_ok {gids : List (BitVec 64)} {globalToLocal : BitVec 64 → Nat}
    {es : List (RioEvent T)} (hsrc : ∀ e ∈ es, globalToLocal (gids.getD e.srcLp 0) = e.srcLp)
    (hmsg : ∀ e ∈ es, e.msg.length = c.msgSz) :
    loadEvents c globalToLocal es.length (es.flatMap (eventBytes c gids)) =
      es.map (rebased c) := by
  induction es with
  | nil => rfl
  | cons e es ih =>
      have hih := ih (fun e' he' => hsrc e' (List.mem_cons_of_mem _ he'))
        fun e' he' => hmsg e' (List.mem_cons_of_mem _ he')
      have hlen : (eventBytes c gids e).length = sizeofIoEventStore + c.msgSz :=
        length_eventBytes c (hmsg e List.mem_cons_self)
      rw [List.flatMap_cons, List.length_cons, loadEvents, List.drop_left' hlen, hih,
        ioEventDeserialize_serialize c (hsrc e List.mem_cons_self) (hmsg e List.mem_cons_self),
        List.map_cons]

end

/-! ## The LPs of a part -/

section

variable {T S : Type} (c : RioSetup T S)

theorem length_modelBytes (lp : RioLp S) : (modelBytes c lp).length = modelSizeOf c lp :=
  (lpType c lp.gid).size lp.gid lp.curState

theorem length_lpBytes (lp : RioLp S) :
    (lpBytes c lp).length = sizeofIoLpStore + modelSizeOf c lp := by
  unfold lpBytes
  rw [List.length_append, length_ioLpSerialize, length_modelBytes]

theorem length_lpBytes_flatMap (lps : List (RioLp S)) :
    (lps.flatMap (lpBytes c)).length =
      lps.length * sizeofIoLpStore + (lps.map (modelSizeOf c)).sum := by
  induction lps with
  | nil =>
      rw [List.flatMap_nil, List.length_nil, List.length_nil, Nat.zero_mul, List.map_nil,
        List.sum_nil, Nat.add_zero]
  | cons lp lps ih =>
      rw [List.flatMap_cons, List.length_append, ih, length_lpBytes, List.length_cons,
        List.map_cons, List.sum_cons, Nat.add_mul]
      omega

/-- Each LP with what the buffer holds from its model state on; `behind` is what comes
after the last. -/
def withBuffer (behind : List UInt8) : List (RioLp S) → List (RioLp S × List UInt8)
  | [] => []
  | lp :: lps =>
      (lp, modelBytes c lp ++ (lps.flatMap (lpBytes c) ++ behind)) :: withBuffer behind lps

/-- The LP `old` after the record `p` is read into it. -/
def loadedLp (p : RioLp S × List UInt8) (old : RioLp S) : RioLp S :=
  { p.1 with
    kp := old.kp
    curState := (c.ioLpTypes 0).deserialize p.1.gid old.curState p.2 }

@[simp] theorem withBuffer_map_fst (behind : List UInt8) (lps : List (RioLp S)) :
    (withBuffer c behind lps).map Prod.fst = lps := by
  induction lps with
  | nil => rfl
  | cons lp lps ih => rw [withBuffer, List.map_cons, ih]

@[simp] theorem length_withBuffer (behind : List UInt8) (lps : List (RioLp S)) :
    (withBuffer c behind lps).length = lps.length := by
  rw [← List.length_map (f := Prod.fst), withBuffer_map_fst]

/-- What the buffer holds for an LP begins with its model state. -/
theorem exists_of_mem_withBuffer {behind : List UInt8} {lps : List (RioLp S)}
    {p : RioLp S × List UInt8} (h : p ∈ withBuffer c behind lps) :
    ∃ rest, p.2 = modelBytes c p.1 ++ rest := by
  induction lps with
  | nil => cases h
  | cons lp lps ih =>
      rcases List.mem_cons.mp h with rfl | hmem
      · exact ⟨_, rfl⟩
      · exact ih hmem

/-- The loop over the LPs of a part fills the next LPs of `g_tw_lp`. -/
theorem loadLps_ok {lps old : List (RioLp S)} (old' : List (RioLp S)) (sizes : List Nat)
    (behind : List UInt8) (hlen : old.length = lps.length) :
    loadLps c lps.length (old ++ old') (lps.map (modelSizeOf c) ++ sizes)
        (lps.flatMap (lpBytes c) ++ behind) =
      .ok (List.zipWith (loadedLp c) (withBuffer c behind lps) old, old', sizes, behind) := by
  induction lps generalizing old with
  | nil =>
      obtain rfl := List.length_eq_zero_iff.mp hlen
      rfl
  | cons lp lps ih =>
      obtain ⟨o, old, rfl⟩ := List.exists_cons_of_length_eq_add_one hlen
      have hlen' : old.length = lps.length := by simpa using hlen
      have hih := ih hlen'
      have hstore : (lp :: lps).flatMap (lpBytes c) ++ behind =
          ioLpSerialize lp ++ (modelBytes c lp ++ (lps.flatMap (lpBytes c) ++ behind)) := by
        rw [List.flatMap_cons, lpBytes, List.append_assoc, List.append_assoc]
      rw [hstore, List.length_cons, List.cons_append, List.map_cons, List.cons_append, loadLps]
      simp only [ioLpDeserialize_serialize]
      rw [List.drop_left' (length_ioLpSerialize lp), List.drop_left' (length_modelBytes c lp), hih]
      rfl

end

end Ross

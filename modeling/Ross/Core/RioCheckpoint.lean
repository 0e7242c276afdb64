import Mathlib.Data.Int.DivMod
import Ross.Core.Signature
import Ross.Lib.ByteLayout
import Ross.Lib.ByteStore
import Ross.Lib.CInt

/-!
# Checkpoints

`io_store_checkpoint` and `io_read_checkpoint` of `rio/io-mpi.c` and the functions of
`rio/io-serialize.c`, on the bytes of the files.  A rank writes one part per KP into its
data file, its records of the parts into the `.rio-md` file and the sizes of its LP
states into the `.rio-lp` file.
-/

namespace Ross

open ByteLayout ByteStore CInt

/-- The assertions, a buffer that its content does not fit, and an offset or a place in
an array that does not exist. -/
inductive RioError
  | bufferSize
  | wrongNumberOfLps
  | freeEvents
  | badOffset
  | outOfRange
deriving DecidableEq

/-- `io_lptype`; an LP is known to its functions by its gid.  What `serialize` writes,
`model_size` bytes, is read back by `deserialize`. -/
structure IoLptype (S : Type) where
  modelSize : BitVec 64 → S → Nat
  serialize : BitVec 64 → S → List UInt8
  deserialize : BitVec 64 → S → List UInt8 → S
  size : ∀ gid st, (serialize gid st).length = modelSize gid st
  inverse : ∀ gid old st rest, deserialize gid old (serialize gid st ++ rest) = st

/-- The fields of `tw_rng_stream` that are stored. -/
structure RngStream where
  ig : Fin 4 → BitVec 32
  lg : Fin 4 → BitVec 32
  cg : Fin 4 → BitVec 32

/-- The fields of a `tw_lp` that a checkpoint concerns. -/
structure RioLp (S : Type) where
  gid : BitVec 64
  kp : Nat
  rng : RngStream
  criticalPath : BitVec 32
  curState : S

/-- The fields of a buffered event; `srcLp` is the place of its LP in `g_tw_lp`. -/
structure RioEvent (T : Type) where
  cv : BitVec 32
  criticalPath : BitVec 32
  destLp : BitVec 64
  srcLp : Nat
  recvTs : T
  msg : List UInt8
deriving DecidableEq

/-- `g_tw_nkp`, `g_io_lp_types` and `g_tw_lp_typemap`, `g_tw_msg_sz`, `g_tw_ts_end`,
`g_io_events_buffered_per_rank`, and the bits of a `tw_stime`. -/
structure RioSetup (T S : Type) where
  nkp : Nat
  ioLpTypes : Nat → IoLptype S
  lpTypemap : BitVec 64 → Nat
  msgSz : Nat
  tsEnd : T
  eventsBuffered : Nat
  toBits : T → BitVec 64
  ofBits : BitVec 64 → T
  ofBits_toBits : ∀ t, ofBits (toBits t) = t

/-- A rank: `g_tw_lp`, the number of its data file, `g_io_buffered_events`, and
`g_tw_custom_lp_global_to_local_map`. -/
structure RioRank {T S : Type} (c : RioSetup T S) where
  lps : List (RioLp S)
  fileNumber : Nat
  buffered : List (RioEvent T)
  globalToLocal : BitVec 64 → Nat
  kp_lt : ∀ lp ∈ lps, lp.kp < c.nkp
  local_eq : ∀ (i : Nat) (lp : RioLp S), lps[i]? = some lp → globalToLocal lp.gid = i
  file_lt : fileNumber < 2 ^ 31
  buffered_le : buffered.length ≤ c.eventsBuffered
  msg_length : ∀ e ∈ buffered, e.msg.length = c.msgSz
  src_lt : ∀ e ∈ buffered, e.srcLp < lps.length

/-- `io_partition`, six `int`s. -/
structure IoPartition where
  part : Int
  file : Int
  offset : Int
  size : Int
  lpCount : Int
  evCount : Int
deriving DecidableEq

/-- The files of a checkpoint. -/
inductive RioFile
  | md
  | lp
  | data (n : Nat)
deriving DecidableEq

/-! ## `io-serialize.c` -/

/-- The fields of `io_lp_store`, with the padding at its end. -/
def ioLpStore : List Nat := [8] ++ List.replicate 12 4 ++ [4, 4]

/-- `sizeof(io_lp_store)`. -/
def sizeofIoLpStore : Nat := 64

/-- The array `rng` of an `io_lp_store`. -/
def RngStream.store (r : RngStream) (i : Fin 12) : BitVec 32 :=
  if h : i.val < 4 then r.ig ⟨i, h⟩
  else if h : i.val < 8 then r.lg ⟨i - 4, by omega⟩
  else r.cg ⟨i - 8, by omega⟩

/-- `io_lp_serialize`. -/
def ioLpSerialize {S : Type} (lp : RioLp S) : List UInt8 :=
  pack ioLpStore
    (lp.gid.toNat :: List.ofFn (fun i => (lp.rng.store i).toNat) ++ [lp.criticalPath.toNat, 0])

/-- `io_lp_deserialize`. -/
def ioLpDeserialize {S : Type} (lp : RioLp S) (b : List UInt8) : RioLp S :=
  let tmp := unpack ioLpStore b
  let rng : Nat → BitVec 32 := fun i => BitVec.ofNat 32 (tmp.getD (i + 1) 0)
  { lp with
    gid := BitVec.ofNat 64 (tmp.getD 0 0)
    rng := ⟨fun j => rng j, fun j => rng (j + 4), fun j => rng (j + 8)⟩
    criticalPath := BitVec.ofNat 32 (tmp.getD 13 0) }

/-- The fields of `io_event_store`. -/
def ioEventStore : List Nat := [4, 4, 8, 8, 8]

/-- `sizeof(io_event_store)`. -/
def sizeofIoEventStore : Nat := 32

section

variable {T S : Type} [TwStime T] (c : RioSetup T S)

/-- `io_event_serialize`; `gids` are those of the LPs of the rank. -/
def ioEventSerialize (gids : List (BitVec 64)) (e : RioEvent T) : List UInt8 :=
  pack ioEventStore [e.cv.toNat, e.criticalPath.toNat, e.destLp.toNat,
    (gids.getD e.srcLp 0).toNat, (c.toBits (e.recvTs - c.tsEnd)).toNat]

omit [TwStime T] in
/-- `io_event_deserialize`, with the message behind it. -/
def ioEventDeserialize (globalToLocal : BitVec 64 → Nat) (b : List UInt8) : RioEvent T :=
  let tmp := unpack ioEventStore b
  { cv := BitVec.ofNat 32 (tmp.getD 0 0)
    criticalPath := BitVec.ofNat 32 (tmp.getD 1 0)
    destLp := BitVec.ofNat 64 (tmp.getD 2 0)
    srcLp := globalToLocal (BitVec.ofNat 64 (tmp.getD 3 0))
    recvTs := c.ofBits (BitVec.ofNat 64 (tmp.getD 4 0))
    msg := (b.drop sizeofIoEventStore).take c.msgSz }

/-! ## `io_store_checkpoint` -/

section

omit [TwStime T]

/-- The type of an LP. -/
def lpType (gid : BitVec 64) : IoLptype S := c.ioLpTypes (c.lpTypemap gid)

/-- The model state of an LP as its type serializes it. -/
def modelBytes (lp : RioLp S) : List UInt8 := (lpType c lp.gid).serialize lp.gid lp.curState

/-- `all_lp_sizes` of an LP. -/
def modelSizeOf (lp : RioLp S) : Nat := (lpType c lp.gid).modelSize lp.gid lp.curState

/-- What is written for an LP. -/
def lpBytes (lp : RioLp S) : List UInt8 := ioLpSerialize lp ++ modelBytes c lp

end

/-- The LPs of a KP, in the order of `g_tw_lp`. -/
def lpsOn {S : Type} (lps : List (RioLp S)) (curKp : Nat) : List (RioLp S) :=
  lps.filter fun lp => decide (lp.kp = curKp)

/-- What is written for a buffered event. -/
def eventBytes (gids : List (BitVec 64)) (e : RioEvent T) : List UInt8 :=
  ioEventSerialize c gids e ++ e.msg

/-- A part as it is written: where, what, and the record of it. -/
structure StoredPart where
  offset : Nat
  bytes : List UInt8
  md : IoPartition

namespace RioRank

variable {c} (r : RioRank c)

section

omit [TwStime T]

/-- The events of a part, in the order `tw_eventq_pop` takes them: all are in the part
of KP 0. -/
def eventsOn (curKp : Nat) : List (RioEvent T) := if curKp = 0 then r.buffered.reverse else []

/-- `sum_size`. -/
def sumSize (curKp : Nat) : Int :=
  int32 (((lpsOn r.lps curKp).length * sizeofIoLpStore +
    ((lpsOn r.lps curKp).map (modelSizeOf c)).sum +
    (r.eventsOn curKp).length * (c.msgSz + sizeofIoEventStore) : Nat) : Int)

/-- The record of a part that is written at `offset`. -/
def partition (kpOffset offset curKp : Nat) : IoPartition where
  part := int32 ((curKp + kpOffset : Nat) : Int)
  file := r.fileNumber
  offset := int32 offset
  size := r.sumSize curKp
  lpCount := int32 (lpsOn r.lps curKp).length
  evCount := int32 (r.eventsOn curKp).length

/-- `all_lp_sizes`, in the order of the KPs. -/
def allLpSizes : List Nat :=
  (List.range c.nkp).flatMap fun curKp => (lpsOn r.lps curKp).map (modelSizeOf c)

/-- `contribute`. -/
def contribute : Int := ((List.range c.nkp).map r.sumSize).sum

end

/-- The events of a part as they are written. -/
def eventPart (curKp : Nat) : List UInt8 :=
  (r.eventsOn curKp).flatMap (eventBytes c (r.lps.map (·.gid)))

/-- The content of the buffer of a part. -/
def partBytes (curKp : Nat) : List UInt8 :=
  (lpsOn r.lps curKp).flatMap (lpBytes c) ++ r.eventPart curKp

/-- The second loop over the KPs: a buffer of `sum_size` bytes is filled and written. -/
def storeParts (kpOffset : Nat) : Nat → List Nat → Except RioError (List StoredPart)
  | _, [] => .ok []
  | offset, curKp :: kps =>
      if ((r.partBytes curKp).length : Int) ≠ r.sumSize curKp then .error .bufferSize
      else
        match storeParts kpOffset (offset + (r.sumSize curKp).toNat) kps with
        | .ok rest => .ok (⟨offset, r.partBytes curKp, r.partition kpOffset offset curKp⟩ :: rest)
        | .error e => .error e

end RioRank

/-- The bytes of an `io_partition`. -/
def IoPartition.bytes (p : IoPartition) : List UInt8 :=
  packArray 4 ([p.part, p.file, p.offset, p.size, p.lpCount, p.evCount].map fun x =>
    (x % 4294967296).toNat)

/-- The size of an `io_partition`. -/
def sizeofIoPartition : Nat := 24

/-- The ranks of a run. -/
abbrev RioJob {T S : Type} (c : RioSetup T S) (n : Nat) := Fin n → RioRank c

namespace RioJob

variable {c} {n : Nat} (job : RioJob c n)

/-- The ranks before `r`. -/
def ranksBefore {n : Nat} (r : Fin n) : List (Fin n) :=
  (List.finRange n).filter fun r' => decide (r' < r)

omit [TwStime T] in
/-- `l_io_lp_offset`. -/
def lpOffset (r : Fin n) : Nat := ((ranksBefore r).map fun r' => (job r').lps.length).sum

/-- `l_io_kp_offset`. -/
def kpOffset {T S : Type} (c : RioSetup T S) {n : Nat} (r : Fin n) : Nat :=
  ((ranksBefore r).map fun _ => c.nkp).sum

omit [TwStime T] in
/-- The `MPI_Exscan` of `contribute` over the ranks of one data file. -/
def dataOffset (r : Fin n) : Int :=
  (((ranksBefore r).filter fun r' => decide ((job r').fileNumber = (job r).fileNumber)).map
    fun r' => (job r').contribute).sum

/-- `io_store_checkpoint` of a rank, up to its writes. -/
def ioStoreCheckpoint (r : Fin n) : Except RioError (List StoredPart) :=
  if job.dataOffset r < 0 then .error .badOffset
  else (job r).storeParts (kpOffset c r) (job.dataOffset r).toNat (List.range c.nkp)

omit [TwStime T] in
/-- The writes of a rank. -/
def writes (r : Fin n) (parts : List StoredPart) : List (Write RioFile) :=
  parts.map (fun p => ⟨.data (job r).fileNumber, p.offset, p.bytes⟩) ++
    [⟨.md, sizeofIoPartition * kpOffset c r, parts.flatMap fun p => p.md.bytes⟩,
      ⟨.lp, 8 * job.lpOffset r, packArray 8 (job r).allLpSizes⟩]

end RioJob

/-! ## `io_read_checkpoint` -/

/-- The `int` at the place `i` of an array. -/
def intAt (b : List UInt8) (i : Nat) : Int := int32 (ofBytes ((b.drop (4 * i)).take 4))

/-- An `io_partition` read from its bytes. -/
def IoPartition.ofBytes (b : List UInt8) : IoPartition where
  part := intAt b 0
  file := intAt b 1
  offset := intAt b 2
  size := intAt b 3
  lpCount := intAt b 4
  evCount := intAt b 5

/-- The records of `n` parts from `offset` on. -/
def readPartitions (f : File) (offset n : Nat) : List IoPartition :=
  (List.range n).map fun i =>
    IoPartition.ofBytes (read f (offset + sizeofIoPartition * i) sizeofIoPartition)

/-- The loop that reads `model_sizes`. -/
def readSizes (f : File) : Nat → List IoPartition → List Nat
  | _, [] => []
  | offset, p :: ps =>
      unpackArray 8 p.lpCount.toNat (read f offset (8 * p.lpCount.toNat)) ++
        readSizes f (offset + 8 * p.lpCount.toNat) ps

section

omit [TwStime T]

/-- The loop over the LPs of a part: `lps` and `sizes` are what is left of `g_tw_lp` and
`model_sizes`. -/
def loadLps : Nat → List (RioLp S) → List Nat → List UInt8 →
    Except RioError (List (RioLp S) × List (RioLp S) × List Nat × List UInt8)
  | 0, lps, sizes, b => .ok ([], lps, sizes, b)
  | n + 1, lp :: lps, size :: sizes, b =>
      let lp := ioLpDeserialize lp b
      let b := b.drop sizeofIoLpStore
      let lp := { lp with curState := (c.ioLpTypes 0).deserialize lp.gid lp.curState b }
      match loadLps n lps sizes (b.drop size) with
      | .ok (done, lps, sizes, b) => .ok (lp :: done, lps, sizes, b)
      | .error e => .error e
  | _ + 1, _, _, _ => .error .outOfRange

/-- The loop over the events of a part. -/
def loadEvents (globalToLocal : BitVec 64 → Nat) : Nat → List UInt8 → List (RioEvent T)
  | 0, _ => []
  | n + 1, b =>
      ioEventDeserialize c globalToLocal b ::
        loadEvents globalToLocal n (b.drop (sizeofIoEventStore + c.msgSz))

/-- The loop over the parts; `free` is the size of `g_io_free_events`. -/
def loadParts (globalToLocal : BitVec 64 → Nat) (files : RioFile → File) :
    List IoPartition → List (RioLp S) → List Nat → Nat →
    Except RioError (List (RioLp S) × List (RioEvent T))
  | [], _, _, _ => .ok ([], [])
  | p :: ps, lps, sizes, free =>
      if p.offset < 0 ∨ p.size < 0 then .error .badOffset
      else
        match loadLps c p.lpCount.toNat lps sizes
            (read (files (.data p.file.toNat)) p.offset.toNat p.size.toNat) with
        | .error e => .error e
        | .ok (done, lps, sizes, b) =>
            if (free : Int) < p.evCount then .error .freeEvents
            else
              match loadParts globalToLocal files ps lps sizes (free - p.evCount.toNat) with
              | .error e => .error e
              | .ok (done', events) =>
                  .ok (done ++ done', loadEvents c globalToLocal p.evCount.toNat b ++ events)

/-- `io_read_checkpoint` of a rank of `job`, whose LPs are now `lps`: the LPs and the
buffered events afterwards. -/
def RioJob.ioReadCheckpoint {c : RioSetup T S} {n : Nat} (job : RioJob c n) (r : Fin n)
    (lps : List (RioLp S)) (files : RioFile → File) :
    Except RioError (List (RioLp S) × List (RioEvent T)) :=
  let parts := readPartitions (files .md) (sizeofIoPartition * RioJob.kpOffset c r) c.nkp
  if int32 (parts.map (·.lpCount)).sum ≠ (lps.length : Int) then .error .wrongNumberOfLps
  else
    loadParts c (job r).globalToLocal files parts lps
      (readSizes (files .lp) (8 * job.lpOffset r) parts) c.eventsBuffered

end

end

end Ross

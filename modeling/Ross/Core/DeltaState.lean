import Ross.Lib.ByteBuffer

/-!
# Delta state saving

`tw-state.c`, `tw_delta_alloc` of `tw-setup.c` and the two functions of `tw-lp.c` that register
LP types.  A snapshot, its difference to the state and the compressed difference lie in the delta
buffers of the PE.  LZ4 is a parameter; of `lz4.c` only `LZ4_compressBound` and
`LZ4_sizeofState` are modelled.
-/

namespace Ross.DeltaState

open ByteBuffer

abbrev Bytes := List UInt8

/-! ## LZ4 -/

/-- `LZ4_compress_fast_extState` with its `maxDestSize`, no bytes for a result of 0, and
`LZ4_decompress_fast` with its `originalSize`, nothing for a negative result. -/
structure Lz4 where
  compress : Bytes → Nat → Bytes
  decompress : Bytes → Nat → Option Bytes

/-- `LZ4_MAX_INPUT_SIZE`. -/
def lz4MaxInputSize : Nat := 0x7E000000

/-- `LZ4_compressBound` of a `size_t` that is cut to an `int`. -/
def lz4CompressBound (isize : Nat) : Nat :=
  let isize := isize % 2 ^ 32
  if lz4MaxInputSize < isize then 0 else isize + isize / 255 + 16

/-- `LZ4_sizeofState`: `LZ4_STREAMSIZE`. -/
def lz4SizeofState : Nat := (2 ^ (14 - 3) + 4) * 8

/-- What `lz4.h` promises: compression succeeds when the destination has `LZ4_compressBound`
bytes, never writes more than the destination has, and gives 0 when it fails; decompression
gives back what was compressed, whatever lies behind it. -/
structure Lz4.Documented (lz4 : Lz4) : Prop where
  succeeds : ∀ src cap, src.length ≤ lz4MaxInputSize → lz4CompressBound src.length ≤ cap →
    (lz4.compress src cap).length ≤ lz4CompressBound src.length ∧ lz4.compress src cap ≠ []
  fits : ∀ src cap, (lz4.compress src cap).length ≤ cap
  inverts : ∀ src cap rest, lz4.compress src cap ≠ [] →
    lz4.decompress (lz4.compress src cap ++ rest) src.length = some src
  originalSize : ∀ bytes n out, lz4.decompress bytes n = some out → out.length = n

/-! ## Registering types -/

/-- `type->state_sz` of every LP that has a type, and `g_tw_delta_sz`. -/
structure Registry where
  types : Nat → Option Nat
  deltaSz : Nat

/-- A call of `tw_lp_settype`, or of `tw_lp_setup_types` with the sizes of the types that
`g_tw_lp_typemap` chooses. -/
inductive RegisterCall
  | settype (id stateSz : Nat)
  | setupTypes (stateSz : Nat → Nat)

inductive DeltaError
  | maxLps
  | noDeltaBuffers
  | outsideBuffer
  | noBuddy
  | decompress
  | endless
deriving DecidableEq

/-- The registry before any call. -/
def Registry.start : Registry := ⟨fun _ => none, 0⟩

/-- `tw_lp_settype` and `tw_lp_setup_types` with `nlp` model LPs and `analysisNlp` analysis
LPs. -/
def Registry.call (nlp analysisNlp : Nat) (g : Registry) : RegisterCall → Except DeltaError Registry
  | .settype id stateSz =>
      if nlp + analysisNlp ≤ id then .error .maxLps
      else
        .ok ⟨Function.update g.types id (some stateSz),
          if g.deltaSz < stateSz then stateSz else g.deltaSz⟩
  | .setupTypes stateSz =>
      .ok { g with types := fun i => if i < nlp then some (stateSz i) else g.types i }

/-! ## The delta buffers -/

/-- `g_tw_delta_sz` and the three delta buffers; an empty one is `NULL`. -/
structure DeltaPe where
  deltaSz : Nat
  buffer0 : Bytes
  buffer1 : Bytes
  buffer2 : Bytes

/-- The size that `tw_calloc` makes of `sz` bytes: `pool_align` is 8. -/
def callocSize (sz : Nat) : Nat := if sz % 8 ≠ 0 then sz + (8 - sz % 8) else sz

/-- `tw_delta_alloc`. -/
def twDeltaAlloc (g : Registry) : DeltaPe :=
  let deltaSz := lz4CompressBound g.deltaSz
  let buffer := List.replicate (callocSize deltaSz) 0
  ⟨deltaSz, buffer, buffer, buffer⟩

/-- The memory that `buddy_alloc` returns, if any. -/
abbrev BuddyAlloc := Nat → Option Bytes

/-- `delta_buddy` and `delta_size` of an event. -/
structure DeltaEvent where
  deltaBuddy : Bytes
  deltaSize : Nat

/-- `tw_snapshot`. -/
def twSnapshot (pe : DeltaPe) (curState : Bytes) (stateSz : Nat) : Except DeltaError DeltaPe :=
  if pe.buffer0 = [] then .error .noDeltaBuffers
  else if pe.buffer0.length < stateSz then .error .outsideBuffer
  else .ok { pe with buffer0 := copyInto pe.buffer0 (curState.take stateSz) }

/-- `LZ4_compress_fast_extState` of the first `stateSz` bytes of a buffer: the size becomes an
`int`. -/
def compressFast (lz4 : Lz4) (src : Bytes) (stateSz cap : Nat) : Bytes :=
  if lz4MaxInputSize < stateSz % 2 ^ 32 then [] else lz4.compress (src.take (stateSz % 2 ^ 32)) cap

/-- `tw_snapshot_delta`, with the current event that it fills. -/
def twSnapshotDelta (lz4 : Lz4) (buddyAlloc : BuddyAlloc) (pe : DeltaPe) (curState : Bytes)
    (stateSz : Nat) : Except DeltaError (DeltaPe × DeltaEvent) :=
  if pe.buffer0.length < stateSz then .error .outsideBuffer
  else
    let delta := List.zipWith (· - ·) (curState.take stateSz) (pe.buffer0.take stateSz)
    let buffer0 := copyInto pe.buffer0 delta
    if pe.buffer2.length < lz4SizeofState ∨ pe.buffer1.length < pe.deltaSz then
      .error .outsideBuffer
    else
      let out := compressFast lz4 buffer0 stateSz pe.deltaSz
      match buddyAlloc out.length with
      | none => .error .noBuddy
      | some block =>
          .ok ({ pe with buffer0 := buffer0, buffer1 := copyInto pe.buffer1 out },
            ⟨copyInto block out, out.length⟩)

/-- `tw_snapshot_restore`, with the state that it leaves; its counter has 32 bits. -/
def twSnapshotRestore (lz4 : Lz4) (pe : DeltaPe) (event : DeltaEvent) (curState : Bytes)
    (stateSz : Nat) : Except DeltaError (DeltaPe × Bytes) :=
  match lz4.decompress event.deltaBuddy (stateSz % 2 ^ 32) with
  | none => .error .decompress
  | some out =>
      if pe.buffer0.length < out.length then .error .outsideBuffer
      else
        let buffer0 := copyInto pe.buffer0 out
        if 2 ^ 32 ≤ stateSz then .error .endless
        else if buffer0.length < stateSz then .error .outsideBuffer
        else
          .ok ({ pe with buffer0 := buffer0 }, copyInto curState
            (List.zipWith (· - ·) (curState.take stateSz) (buffer0.take stateSz)))

end Ross.DeltaState

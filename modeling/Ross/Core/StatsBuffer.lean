import Ross.Lib.ByteStore
import Ross.Lib.CInt

/-!
# The buffers of the instrumentation

`st-stats-buffer.c`: a rank collects its records in a circular buffer, and in a collective
round all ranks write their buffers into one file, or none does.  A copy to or from a place
outside the buffer has no result.
-/

namespace Ross

open ByteStore CInt

/-- `st_stats_buffer`; `count` is an `int` that wraps around. -/
structure StStatsBuffer where
  buffer : List UInt8
  size : Nat
  writePos : Nat
  readPos : Nat
  count : Int
deriving DecidableEq

/-- The buffer of one type on a rank, with `missed_bytes` and the `prev_offsets` of the
type. -/
structure RankBuffer where
  buf : StStatsBuffer
  missedBytes : Nat
  prevOffset : Nat
deriving DecidableEq

/-- `g_st_buffer_size`, an `int`, `g_st_disable_out`, and whether the quotient of a number of
bytes by the size of the buffer is at least `g_st_buffer_free_percent / 100.0`. -/
structure StatsSetup where
  bufferSize : Nat
  bufferSize_lt : bufferSize < 2 ^ 31
  disableOut : Bool
  full : Int → Bool

/-- `memcpy` to the place `pos` of the buffer. -/
def memcpyTo (buffer : List UInt8) (pos : Nat) (data : List UInt8) : Option (List UInt8) :=
  if pos + data.length ≤ buffer.length then
    some (buffer.take pos ++ data ++ buffer.drop (pos + data.length))
  else none

/-- The `n` bytes of the buffer from `pos` on. -/
def bytesAt (buffer : List UInt8) (pos n : Nat) : Option (List UInt8) :=
  if pos + n ≤ buffer.length then some ((buffer.drop pos).take n) else none

variable (c : StatsSetup)

/-- `st_buffer_init`. -/
def stBufferInit : RankBuffer :=
  ⟨⟨List.replicate c.bufferSize 0, c.bufferSize, 0, 0, 0⟩, 0, 0⟩

/-- The first test of `st_buffer_push`: the record is dropped. -/
def pushOverflows (b : StStatsBuffer) (data : List UInt8) : Bool :=
  !c.disableOut && decide ((b.size : Int) - b.count < data.length)

/-- The copies of `st_buffer_push`. -/
def copyRecord (b : StStatsBuffer) (data : List UInt8) : Option StStatsBuffer :=
  let size1 := b.size - b.writePos
  if data.length ≤ size1 then do
    let buffer ← memcpyTo b.buffer b.writePos data
    return { b with buffer := buffer, writePos := b.writePos + data.length }
  else do
    let buffer ← memcpyTo b.buffer b.writePos (data.take size1)
    let buffer ← memcpyTo buffer 0 (data.drop size1)
    return { b with buffer := buffer, writePos := data.length - size1 }

/-- `st_buffer_push`. -/
def stBufferPush (r : RankBuffer) (data : List UInt8) : Option RankBuffer :=
  if pushOverflows c r.buf data then
    some { r with missedBytes := r.missedBytes + data.length }
  else if data = [] then some r
  else do
    let b ← copyRecord r.buf data
    return { r with buf := { b with count := int32 (b.count + data.length) } }

/-- The decision of `st_buffer_write`. -/
def writeToFile (endOfSim : Bool) (writeSizes : List Int) : Bool :=
  endOfSim || writeSizes.any c.full

/-- `st_buffer_write` on the rank `mynode`, with the gathered sizes: what it writes into the
file, if it does, and the buffer afterwards. -/
def stBufferWrite (mynode : Nat) (endOfSim : Bool) (writeSizes : List Int) (r : RankBuffer) :
    Option (Option (Write Unit) × RankBuffer) :=
  if writeToFile c endOfSim writeSizes then do
    let offset := r.prevOffset + ((writeSizes.take mynode).map Int.toNat).sum
    let bytes ← bytesAt r.buf.buffer r.buf.readPos r.buf.count.toNat
    return (some ⟨(), offset, bytes⟩,
      { r with
        buf := { r.buf with writePos := 0, readPos := 0, count := 0 }
        prevOffset := r.prevOffset + (writeSizes.map Int.toNat).sum })
  else some (none, r)

/-! ## All ranks -/

/-- A call on a rank, or a collective call on all of them. -/
inductive StatsLabel (n : Nat)
  | push (i : Fin n) (data : List UInt8)
  | write (endOfSim : Bool)

/-- The buffers of the ranks, and beside them the records that were pushed on each rank and
whether they were taken, and for each round what each rank wrote. -/
structure StatsRun (n : Nat) where
  rank : Fin n → RankBuffer
  pushed : Fin n → List (List UInt8 × Bool)
  rounds : List (Fin n → Option (Write Unit))

/-- The ranks at first. -/
def StatsRun.start (n : Nat) : StatsRun n := ⟨fun _ => stBufferInit c, fun _ => [], []⟩

variable {c} {n : Nat}

/-- The results of all ranks, if each has one. -/
def allRanks {α : Type} (f : Fin n → Option α) : Option (Fin n → α) :=
  if h : ∀ i, (f i).isSome then some fun i => (f i).get (h i) else none

variable (c)

/-- A call. -/
def StatsRun.step (s : StatsRun n) : StatsLabel n → Option (StatsRun n)
  | .push i data => do
      let r ← stBufferPush c (s.rank i) data
      return { s with
        rank := Function.update s.rank i r
        pushed := Function.update s.pushed i
          (s.pushed i ++ [(data, !pushOverflows c (s.rank i).buf data)]) }
  | .write endOfSim => do
      let writeSizes := List.ofFn fun j => (s.rank j).buf.count
      let r ← allRanks fun i => stBufferWrite c i endOfSim writeSizes (s.rank i)
      return { s with
        rank := fun i => (r i).2
        rounds := s.rounds ++ [fun i => (r i).1] }

/-- The calls of a run, in any order. -/
def StatsRun.run (s : StatsRun n) (labels : List (StatsLabel n)) : Option (StatsRun n) :=
  labels.foldlM (StatsRun.step c) s

end Ross

import Ross.Proofs.StatsStream

/-!
# The bounds of the instrumentation buffers

`st_buffer_push` tests whether a record fits only when output is enabled.  When it is disabled a
record that runs over the end of the buffer is continued at its start, and nothing says that the
rest of it fits there.
-/

namespace Ross

variable {c : StatsSetup} {b : StStatsBuffer} {data : List UInt8}

/-! ## One copy -/

theorem memcpyTo_ok {buffer : List UInt8} {pos : Nat} (h : pos + data.length ≤ buffer.length) :
    ∃ buffer', memcpyTo buffer pos data = some buffer' ∧ buffer'.length = buffer.length := by
  refine ⟨_, if_pos h, ?_⟩
  rw [List.length_append, List.length_append, List.length_take, List.length_drop]
  omega

theorem memcpyTo_none {buffer : List UInt8} {pos : Nat} (h : buffer.length < pos + data.length) :
    memcpyTo buffer pos data = none :=
  if_neg (Nat.not_le_of_lt h)

/-- A buffer of its size whose write position is inside of it or at its end. -/
structure InBounds (c : StatsSetup) (b : StStatsBuffer) : Prop where
  length : b.buffer.length = c.bufferSize
  size : b.size = c.bufferSize
  writePos : b.writePos ≤ c.bufferSize

theorem inBounds_init : InBounds c (stBufferInit c).buf :=
  ⟨List.length_replicate, rfl, Nat.zero_le _⟩

/-- The write position behind a record of `n` bytes. -/
def nextPos (size pos n : Nat) : Nat := if n ≤ size - pos then pos + n else n - (size - pos)

/-- A record stays in the buffer exactly when what runs over its end is not longer than it. -/
theorem copyRecord_bounds (h : InBounds c b) (data : List UInt8) :
    (data.length ≤ c.bufferSize - b.writePos + c.bufferSize →
      ∃ b', copyRecord b data = some b' ∧ InBounds c b' ∧
        b'.writePos = nextPos c.bufferSize b.writePos data.length) ∧
    (c.bufferSize - b.writePos + c.bufferSize < data.length → copyRecord b data = none) := by
  have hlen := h.length
  have hwrite := h.writePos
  unfold copyRecord nextPos
  dsimp only
  rw [h.size]
  by_cases hone : data.length ≤ c.bufferSize - b.writePos
  · rw [if_pos hone, if_pos hone]
    have hin : b.writePos + data.length ≤ b.buffer.length := by omega
    obtain ⟨buffer, hcopy, hsame⟩ := memcpyTo_ok hin
    refine ⟨fun _ => ?_, fun hlong => by omega⟩
    rw [hcopy]
    refine ⟨_, rfl, ⟨hsame.trans hlen, rfl, ?_⟩, rfl⟩
    show b.writePos + data.length ≤ c.bufferSize
    omega
  · rw [if_neg hone, if_neg hone]
    have hfirst : (data.take (c.bufferSize - b.writePos)).length = c.bufferSize - b.writePos := by
      rw [List.length_take]
      omega
    have hsecond : (data.drop (c.bufferSize - b.writePos)).length =
        data.length - (c.bufferSize - b.writePos) := List.length_drop
    have hin : b.writePos + (data.take (c.bufferSize - b.writePos)).length ≤
        b.buffer.length := by
      rw [hfirst]
      omega
    obtain ⟨buffer, hcopy, hsame⟩ := memcpyTo_ok hin
    rw [hcopy]
    refine ⟨fun hfits => ?_, fun hlong => ?_⟩
    · have hrest : 0 + (data.drop (c.bufferSize - b.writePos)).length ≤ buffer.length := by
        rw [hsecond]
        omega
      obtain ⟨buffer', hcopy', hsame'⟩ := memcpyTo_ok hrest
      refine ⟨{ b with
          buffer := buffer'
          size := c.bufferSize
          writePos := data.length - (c.bufferSize - b.writePos) },
        ?_, ⟨(hsame'.trans hsame).trans hlen, rfl, ?_⟩, rfl⟩
      · change (memcpyTo buffer 0 (data.drop (c.bufferSize - b.writePos))).bind _ = _
        rw [hcopy']
        rfl
      · show data.length - (c.bufferSize - b.writePos) ≤ c.bufferSize
        omega
    · change (memcpyTo buffer 0 (data.drop (c.bufferSize - b.writePos))).bind _ = none
      rw [memcpyTo_none (by rw [hsecond]; omega)]
      rfl

/-! ## Runs of pushes -/

/-- The calls of `st_buffer_push` with the records of a list, on a new buffer. -/
def pushAll (c : StatsSetup) (records : List (List UInt8)) : Option RankBuffer :=
  records.foldlM (stBufferPush c) (stBufferInit c)

/-- No record of the given sizes is longer than the rest of the buffer from the write position
`pos` on and the whole buffer together. -/
def FitsAround (size : Nat) : Nat → List Nat → Prop
  | _, [] => True
  | pos, n :: ns => n ≤ size - pos + size ∧ FitsAround size (nextPos size pos n) ns

/-- While output is disabled every record is copied. -/
theorem stBufferPush_disabled {r : RankBuffer} (hout : c.disableOut = true) (hdata : data ≠ []) :
    stBufferPush c r data = (copyRecord r.buf data).map fun b =>
      { r with buf := { b with count := CInt.int32 (b.count + data.length) } } := by
  have hover : pushOverflows c r.buf data = false := by
    unfold pushOverflows
    rw [hout]
    rfl
  unfold stBufferPush
  rw [hover, if_neg Bool.false_ne_true, if_neg hdata]
  cases copyRecord r.buf data <;> rfl

/-- A run while output is disabled, from any position. -/
theorem pushes_disabled (hout : c.disableOut = true) {r : RankBuffer} (h : InBounds c r.buf)
    {records : List (List UInt8)} (hpos : ∀ data ∈ records, data ≠ []) :
    (FitsAround c.bufferSize r.buf.writePos (records.map List.length) →
      ∃ r', records.foldlM (stBufferPush c) r = some r' ∧ InBounds c r'.buf) ∧
    (¬ FitsAround c.bufferSize r.buf.writePos (records.map List.length) →
      records.foldlM (stBufferPush c) r = none) := by
  induction records generalizing r with
  | nil => exact ⟨fun _ => ⟨r, rfl, h⟩, fun hno => absurd trivial hno⟩
  | cons data records ih =>
      obtain ⟨hcopy, hnone⟩ := copyRecord_bounds h data
      have hpush := stBufferPush_disabled (r := r) hout (hpos data List.mem_cons_self)
      by_cases hfits : data.length ≤ c.bufferSize - r.buf.writePos + c.bufferSize
      · obtain ⟨b', hb', hin, hwrite⟩ := hcopy hfits
        rw [hb', Option.map_some] at hpush
        have hnext := ih
          (r := { r with buf := { b' with count := CInt.int32 (b'.count + data.length) } })
          ⟨hin.length, hin.size, hin.writePos⟩ fun d hd => hpos d (List.mem_cons_of_mem _ hd)
        rw [List.foldlM_cons, hpush]
        refine ⟨fun hall => hnext.1 ?_, fun hno => hnext.2 fun hall => hno ⟨hfits, ?_⟩⟩
        · rw [hwrite]
          exact hall.2
        · rw [← hwrite]
          exact hall
      · rw [List.foldlM_cons, hpush, hnone (Nat.lt_of_not_le hfits)]
        exact ⟨fun hall => absurd hall.1 hfits, fun _ => rfl⟩

/-- A run while output is enabled: what does not fit is dropped. -/
theorem pushes_enabled (hout : c.disableOut = false) {r : RankBuffer}
    (h : FilledFromStart c r.buf) (records : List (List UInt8)) :
    ∃ r', records.foldlM (stBufferPush c) r = some r' ∧ FilledFromStart c r'.buf := by
  induction records generalizing r with
  | nil => exact ⟨r, rfl, h⟩
  | cons data records ih =>
      obtain ⟨r', hr', hfill, -⟩ := stBufferPush_ok hout h data
      rw [List.foldlM_cons, hr']
      exact ih hfill

theorem FitsAround.of_prefix {size pos : Nat} {ms ns : List Nat}
    (h : FitsAround size pos (ms ++ ns)) : FitsAround size pos ms := by
  induction ms generalizing pos with
  | nil => exact trivial
  | cons m ms ih => exact ⟨h.1, ih h.2⟩

/-- The pushes of a run stay in the buffer exactly when output is enabled or no record runs over
the end of the buffer by more than its size. -/
theorem pushes_in_bounds_iff (c : StatsSetup) (records : List (List UInt8))
    (hpos : ∀ data ∈ records, data ≠ []) :
    (∀ done, done <+: records → ∃ r, pushAll c done = some r ∧
      r.buf.buffer.length = c.bufferSize ∧ r.buf.writePos ≤ c.bufferSize) ↔
    (c.disableOut = true → FitsAround c.bufferSize 0 (records.map List.length)) := by
  constructor
  · intro hall hout
    by_contra hno
    obtain ⟨r, hr, -⟩ := hall records List.prefix_rfl
    have hnone := (pushes_disabled hout inBounds_init hpos).2 hno
    cases hr.symm.trans hnone
  · rintro hfits done ⟨rest, rfl⟩
    have hdone : ∀ data ∈ done, data ≠ [] := fun data hd =>
      hpos data (List.mem_append_left _ hd)
    cases hout : c.disableOut with
    | false =>
        obtain ⟨r, hr, hfill⟩ := pushes_enabled hout filledFromStart_init done
        exact ⟨r, hr, hfill.length, hfill.writePos⟩
    | true =>
        have haround := hfits hout
        rw [List.map_append] at haround
        obtain ⟨r, hr, hin⟩ := (pushes_disabled hout inBounds_init hdone).1 haround.of_prefix
        exact ⟨r, hr, hin.length, hin.writePos⟩

/-- A buffer of four bytes, with output disabled. -/
def quietSetup : StatsSetup := ⟨4, by decide, true, fun _ => false⟩

/-- The second record is copied over the end of the buffer. -/
theorem pushes_in_bounds_wrapped :
    ∃ r, pushAll quietSetup [[1, 2, 3], [4, 5]] = some r ∧
      r.buf.buffer.length = quietSetup.bufferSize ∧ r.buf.writePos ≤ quietSetup.bufferSize := by
  have hstay := (pushes_in_bounds_iff quietSetup [[1, 2, 3], [4, 5]] (by decide)).mpr fun _ =>
    ⟨by decide, by decide, trivial⟩
  exact hstay _ List.prefix_rfl

/-- A record of nine bytes is copied over the end of a buffer of four. -/
theorem pushes_out_of_bounds :
    ¬ ∀ (c : StatsSetup) (records : List (List UInt8)), (∀ data ∈ records, data ≠ []) →
      ∃ r, pushAll c records = some r ∧ r.buf.writePos ≤ r.buf.size := by
  intro h
  obtain ⟨r, hr, -⟩ := h quietSetup [[1, 2, 3, 4, 5, 6, 7, 8, 9]] (by decide)
  have hnone : pushAll quietSetup [[1, 2, 3, 4, 5, 6, 7, 8, 9]] = none := by decide
  cases hr.symm.trans hnone

end Ross

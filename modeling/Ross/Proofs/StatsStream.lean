import Mathlib.Data.List.Induction
import Mathlib.Data.List.ReduceOption
import Ross.Core.StatsBuffer

/-!
# The stream of the instrumentation

As long as records are dropped that do not fit, a buffer holds its bytes at its beginning.
In a round the ranks write them one behind the other, from where the round before ended.
-/

namespace Ross

open ByteStore CInt

variable {c : StatsSetup} {r r' : RankBuffer} {data : List UInt8}

/-! ## One buffer -/

/-- The bytes that wait in a buffer. -/
def StStatsBuffer.pending (b : StStatsBuffer) : List UInt8 :=
  (b.buffer.drop b.readPos).take b.count.toNat

/-- A buffer that is filled from its beginning. -/
structure FilledFromStart (c : StatsSetup) (b : StStatsBuffer) : Prop where
  length : b.buffer.length = c.bufferSize
  size : b.size = c.bufferSize
  readPos : b.readPos = 0
  count : b.count = b.writePos
  writePos : b.writePos ≤ c.bufferSize

theorem filledFromStart_init : FilledFromStart c (stBufferInit c).buf :=
  ⟨List.length_replicate, rfl, rfl, rfl, Nat.zero_le _⟩

theorem FilledFromStart.pending_eq {b : StStatsBuffer} (h : FilledFromStart c b) :
    b.pending = b.buffer.take b.writePos := by
  unfold StStatsBuffer.pending
  rw [h.readPos, h.count, List.drop_zero, Int.toNat_natCast]

theorem FilledFromStart.length_pending {b : StStatsBuffer} (h : FilledFromStart c b) :
    b.pending.length = b.writePos := by
  rw [h.pending_eq, List.length_take, h.length]
  exact Nat.min_eq_left h.writePos

/-- A record that fits is copied behind the bytes that wait. -/
theorem copyRecord_ok {b : StStatsBuffer} (h : FilledFromStart c b)
    (hfit : b.writePos + data.length ≤ c.bufferSize) :
    ∃ buffer, copyRecord b data =
        some { b with buffer := buffer, writePos := b.writePos + data.length } ∧
      buffer.length = c.bufferSize ∧
      buffer.take (b.writePos + data.length) = b.pending ++ data := by
  have hle : data.length ≤ b.size - b.writePos := by
    rw [h.size]
    omega
  have hin : b.writePos + data.length ≤ b.buffer.length := by
    rw [h.length]
    exact hfit
  have hlen : (b.buffer.take b.writePos).length = b.writePos := by
    rw [List.length_take]
    omega
  refine ⟨b.buffer.take b.writePos ++ data ++ b.buffer.drop (b.writePos + data.length),
    ?_, ?_, ?_⟩
  · unfold copyRecord memcpyTo
    simp only [if_pos hle, if_pos hin]
    rfl
  · have hl := h.length
    simp only [List.length_append, hlen, List.length_drop]
    omega
  · rw [h.pending_eq]
    apply List.take_left'
    rw [List.length_append, hlen]

/-- What a push does while output is enabled. -/
theorem stBufferPush_ok (hout : c.disableOut = false) (h : FilledFromStart c r.buf)
    (data : List UInt8) :
    ∃ r', stBufferPush c r data = some r' ∧ FilledFromStart c r'.buf ∧
      r'.prevOffset = r.prevOffset ∧
      (pushOverflows c r.buf data = true → r'.buf.pending = r.buf.pending ∧
        r'.missedBytes = r.missedBytes + data.length) ∧
      (pushOverflows c r.buf data = false → r'.buf.pending = r.buf.pending ++ data ∧
        r'.missedBytes = r.missedBytes) := by
  unfold stBufferPush
  by_cases hover : pushOverflows c r.buf data = true
  · rw [if_pos hover]
    refine ⟨_, rfl, h, rfl, fun _ => ⟨rfl, rfl⟩, fun hfalse => ?_⟩
    rw [hover] at hfalse
    cases hfalse
  · rw [if_neg hover]
    by_cases hdata : data = []
    · rw [if_pos hdata]
      exact ⟨r, rfl, h, rfl, fun ht => absurd ht hover, fun _ => ⟨by rw [hdata]; simp, rfl⟩⟩
    · rw [if_neg hdata]
      have hfit : r.buf.writePos + data.length ≤ c.bufferSize := by
        unfold pushOverflows at hover
        rw [hout, h.size, h.count] at hover
        simp at hover
        omega
      obtain ⟨buffer, hcopy, hlen, htake⟩ := copyRecord_ok h hfit
      have hcount : int32 (r.buf.count + data.length) =
          ((r.buf.writePos + data.length : Nat) : Int) := by
        have hlt := c.bufferSize_lt
        rw [h.count, int32_of_lt (by omega) (by omega), Nat.cast_add]
      rw [hcopy]
      refine ⟨{ r with buf := { r.buf with
          buffer := buffer
          writePos := r.buf.writePos + data.length
          count := int32 (r.buf.count + data.length) } }, rfl,
        ⟨hlen, h.size, h.readPos, hcount, hfit⟩, rfl,
        fun ht => absurd ht hover, fun _ => ⟨?_, rfl⟩⟩
      rw [← htake]
      unfold StStatsBuffer.pending
      simp only [h.readPos, hcount, List.drop_zero, Int.toNat_natCast]

/-- What a rank does in a round. -/
theorem stBufferWrite_ok (h : FilledFromStart c r.buf) (mynode : Nat) (endOfSim : Bool)
    (writeSizes : List Int) : stBufferWrite c mynode endOfSim writeSizes r =
      if writeToFile c endOfSim writeSizes then
        some (some ⟨(), r.prevOffset + ((writeSizes.take mynode).map Int.toNat).sum,
            r.buf.pending⟩,
          { r with
            buf := { r.buf with writePos := 0, readPos := 0, count := 0 }
            prevOffset := r.prevOffset + (writeSizes.map Int.toNat).sum })
      else some (none, r) := by
  have hbytes : bytesAt r.buf.buffer r.buf.readPos r.buf.count.toNat = some r.buf.pending := by
    refine if_pos ?_
    rw [h.readPos, h.count, h.length, Int.toNat_natCast, Nat.zero_add]
    exact h.writePos
  unfold stBufferWrite
  rw [hbytes]
  rfl

/-! ## All ranks -/

variable {n : Nat}

/-- What a rank has written, and what all have, round by round in the order of the ranks. -/
def StatsRun.rankWrites (s : StatsRun n) (i : Fin n) : List (Write Unit) :=
  s.rounds.filterMap fun w => w i

def StatsRun.writes (s : StatsRun n) : List (Write Unit) :=
  s.rounds.flatMap fun w => (List.ofFn w).reduceOption

/-- The records of a rank that were taken, and those that were dropped. -/
def StatsRun.accepted (s : StatsRun n) (i : Fin n) : List (List UInt8) :=
  ((s.pushed i).filter (·.2)).map (·.1)

def StatsRun.dropped (s : StatsRun n) (i : Fin n) : List (List UInt8) :=
  ((s.pushed i).filter fun record => !record.2).map (·.1)

/-- The records that a rank pushes. -/
def recordsOf (i : Fin n) (labels : List (StatsLabel n)) : List (List UInt8) :=
  labels.filterMap fun label =>
    match label with
    | .push j data => if j = i then some data else none
    | .write _ => none

/-- What holds in every run. -/
structure StreamInv (c : StatsSetup) (labels : List (StatsLabel n)) (s : StatsRun n) : Prop where
  filled : ∀ i, FilledFromStart c (s.rank i).buf
  prevOffset : ∀ i, (s.rank i).prevOffset = totalBytes s.writes
  chained : Chained 0 s.writes
  decision : ∀ w ∈ s.rounds, ∀ i j, (w i).isSome = (w j).isSome
  stream : ∀ i, (s.rankWrites i).flatMap (·.bytes) ++ (s.rank i).buf.pending =
    (s.accepted i).flatten
  whole : ∀ i, (s.pushed i).map (·.1) = recordsOf i labels
  missed : ∀ i, (s.rank i).missedBytes = ((s.dropped i).map List.length).sum

theorem streamInv_start : StreamInv c [] (StatsRun.start c n) where
  filled _ := filledFromStart_init
  prevOffset _ := rfl
  chained := trivial
  decision _ hw := by cases hw
  stream _ := by
    unfold StatsRun.start stBufferInit StatsRun.rankWrites StatsRun.accepted
      StStatsBuffer.pending
    simp
  whole _ := rfl
  missed _ := rfl

theorem recordsOf_push (labels : List (StatsLabel n)) (i j : Fin n) (data : List UInt8) :
    recordsOf j (labels ++ [.push i data]) =
      recordsOf j labels ++ if i = j then [data] else [] := by
  unfold recordsOf
  rw [List.filterMap_append]
  by_cases h : i = j <;> simp [h]

theorem recordsOf_write (labels : List (StatsLabel n)) (j : Fin n) (endOfSim : Bool) :
    recordsOf j (labels ++ [.write endOfSim]) = recordsOf j labels := by
  unfold recordsOf
  rw [List.filterMap_append]
  simp

/-- A push keeps the invariant. -/
theorem StreamInv.push (hout : c.disableOut = false) {labels : List (StatsLabel n)}
    {s : StatsRun n} (h : StreamInv c labels s) (i : Fin n) (data : List UInt8) :
    ∃ s', s.step c (.push i data) = some s' ∧ StreamInv c (labels ++ [.push i data]) s' := by
  obtain ⟨r', hpush, hfilled, hprev, hdrop, htake⟩ := stBufferPush_ok hout (h.filled i) data
  refine ⟨{ s with
    rank := Function.update s.rank i r'
    pushed := Function.update s.pushed i
      (s.pushed i ++ [(data, !pushOverflows c (s.rank i).buf data)]) }, ?_, ?_⟩
  · unfold StatsRun.step
    simp only [hpush]
    rfl
  · refine ⟨?_, ?_, h.chained, h.decision, ?_, ?_, ?_⟩ <;> intro j <;> by_cases hj : j = i
    · subst hj
      simp only [Function.update_self]
      exact hfilled
    · simp only [Function.update_of_ne hj]
      exact h.filled j
    · subst hj
      simp only [Function.update_self]
      exact hprev.trans (h.prevOffset j)
    · simp only [Function.update_of_ne hj]
      exact h.prevOffset j
    · subst hj
      have hold := h.stream j
      unfold StatsRun.accepted StatsRun.rankWrites at hold ⊢
      simp only [Function.update_self]
      cases hover : pushOverflows c (s.rank j).buf data with
      | true =>
          rw [(hdrop hover).1, hold]
          simp
      | false =>
          rw [(htake hover).1, ← List.append_assoc, hold]
          simp
    · have hold := h.stream j
      unfold StatsRun.accepted StatsRun.rankWrites at hold ⊢
      simp only [Function.update_of_ne hj]
      exact hold
    · subst hj
      rw [recordsOf_push, if_pos rfl, ← h.whole j]
      simp only [Function.update_self, List.map_append, List.map_cons, List.map_nil]
    · rw [recordsOf_push, if_neg (Ne.symm hj), ← h.whole j]
      simp only [Function.update_of_ne hj, List.append_nil]
    · subst hj
      have hold := h.missed j
      unfold StatsRun.dropped at hold ⊢
      simp only [Function.update_self]
      cases hover : pushOverflows c (s.rank j).buf data with
      | true =>
          rw [(hdrop hover).2, hold]
          simp
      | false =>
          rw [(htake hover).2, hold]
          simp
    · have hold := h.missed j
      unfold StatsRun.dropped at hold ⊢
      simp only [Function.update_of_ne hj]
      exact hold

theorem allRanks_eq {α : Type} {f : Fin n → Option α} {g : Fin n → α} (h : ∀ i, f i = some (g i)) :
    allRanks f = some g := by
  have hsome : ∀ i, (f i).isSome := by
    intro i
    rw [h i]
    rfl
  unfold allRanks
  rw [dif_pos hsome]
  congr 1
  funext i
  exact Option.get_of_eq_some _ (h i)

/-- A round in which all ranks write, and one in which none does. -/
theorem reduceOption_some (w : Fin n → Write Unit) :
    (List.ofFn fun i => some (w i)).reduceOption = List.ofFn w := by
  have hmap : (List.ofFn fun i => some (w i)) = (List.ofFn w).map some :=
    List.map_ofFn.symm
  unfold List.reduceOption
  rw [hmap, List.filterMap_map]
  exact List.filterMap_some

theorem reduceOption_none :
    (List.ofFn fun _ : Fin n => (none : Option (Write Unit))).reduceOption = [] := by
  unfold List.reduceOption
  rw [List.filterMap_eq_nil_iff]
  intro o ho
  obtain ⟨i, rfl⟩ := List.mem_ofFn.mp ho
  rfl

theorem writes_append {s s' : StatsRun n} {w : Fin n → Option (Write Unit)}
    (h : s'.rounds = s.rounds ++ [w]) : s'.writes = s.writes ++ (List.ofFn w).reduceOption := by
  unfold StatsRun.writes
  rw [h, List.flatMap_append, List.flatMap_singleton]

theorem rankWrites_append {s s' : StatsRun n} {w : Fin n → Option (Write Unit)}
    (h : s'.rounds = s.rounds ++ [w]) (i : Fin n) :
    s'.rankWrites i = s.rankWrites i ++ (w i).toList := by
  unfold StatsRun.rankWrites
  rw [h, List.filterMap_append, List.filterMap_cons, List.filterMap_nil]
  cases w i <;> rfl

/-- The sizes that the ranks gather. -/
theorem StreamInv.gathered {labels : List (StatsLabel n)} {s : StatsRun n}
    (h : StreamInv c labels s) : (List.ofFn fun j => (s.rank j).buf.count).map Int.toNat =
      List.ofFn fun j => (s.rank j).buf.pending.length := by
  rw [List.map_ofFn]
  congr 1
  funext j
  rw [Function.comp_apply, (h.filled j).count, (h.filled j).length_pending, Int.toNat_natCast]

/-- A round keeps the invariant. -/
theorem StreamInv.write {labels : List (StatsLabel n)} {s : StatsRun n}
    (h : StreamInv c labels s) (endOfSim : Bool) :
    ∃ s', s.step c (.write endOfSim) = some s' ∧
      StreamInv c (labels ++ [.write endOfSim]) s' ∧
      (endOfSim = true → ∀ i, (s'.rank i).buf.pending = []) := by
  have hone := fun i : Fin n => stBufferWrite_ok (h.filled i) i endOfSim
    (List.ofFn fun j => (s.rank j).buf.count)
  by_cases hw : writeToFile c endOfSim (List.ofFn fun j => (s.rank j).buf.count) = true
  · simp only [if_pos hw] at hone
    set w : Fin n → Write Unit := fun i => ⟨(), (s.rank i).prevOffset +
      (((List.ofFn fun j => (s.rank j).buf.count).take i).map Int.toNat).sum,
      (s.rank i).buf.pending⟩ with hwdef
    set s' : StatsRun n :=
      { s with
        rank := fun i =>
          { s.rank i with
            buf := { (s.rank i).buf with writePos := 0, readPos := 0, count := 0 }
            prevOffset := (s.rank i).prevOffset +
              ((List.ofFn fun j => (s.rank j).buf.count).map Int.toNat).sum }
        rounds := s.rounds ++ [fun i => some (w i)] } with hs'
    have hwrites : s'.writes = s.writes ++ List.ofFn w := by
      rw [writes_append (s := s) rfl, reduceOption_some]
    have hempty : ∀ i, (s'.rank i).buf.pending = [] := fun i => List.take_zero
    refine ⟨s', ?_, ⟨?_, ?_, ?_, ?_, ?_, ?_, h.missed⟩, fun _ => hempty⟩
    · unfold StatsRun.step
      simp only [allRanks_eq hone]
      rfl
    · intro i
      exact ⟨(h.filled i).length, (h.filled i).size, rfl, rfl, Nat.zero_le _⟩
    · intro i
      have hlen : totalBytes (List.ofFn w) =
          (List.ofFn fun j => (s.rank j).buf.pending.length).sum := by
        unfold totalBytes
        rw [List.map_ofFn]
        rfl
      have hprev : (s'.rank i).prevOffset = (s.rank i).prevOffset +
        ((List.ofFn fun j => (s.rank j).buf.count).map Int.toNat).sum := rfl
      rw [hprev, h.prevOffset i, h.gathered, ← hlen, hwrites]
      unfold totalBytes
      rw [List.map_append, List.sum_append]
    · rw [hwrites]
      apply h.chained.append
      apply Chained.ofFn (fun i => (s.rank i).buf.pending.length) fun i => rfl
      intro i
      rw [← h.gathered, hwdef]
      simp only
      rw [h.prevOffset i, Nat.zero_add, List.map_take]
    · intro v hv i j
      rcases List.mem_append.mp hv with hold | hnew
      · exact h.decision v hold i j
      · rw [List.mem_singleton.mp hnew]
        rfl
    · intro i
      have hrank : s'.rankWrites i = s.rankWrites i ++ [w i] :=
        rankWrites_append (s := s) (w := fun i => some (w i)) rfl i
      rw [hempty i, List.append_nil, hrank, List.flatMap_append, List.flatMap_singleton]
      exact h.stream i
    · intro i
      rw [recordsOf_write]
      exact h.whole i
  · simp only [if_neg hw] at hone
    set s' : StatsRun n := { s with rounds := s.rounds ++ [fun _ => none] } with hs'
    have hwrites : s'.writes = s.writes := by
      rw [writes_append (s := s) rfl, reduceOption_none, List.append_nil]
    refine ⟨s', ?_, ⟨h.filled, ?_, ?_, ?_, ?_, ?_, h.missed⟩, ?_⟩
    · unfold StatsRun.step
      simp only [allRanks_eq hone]
      rfl
    · rw [hwrites]
      exact h.prevOffset
    · rw [hwrites]
      exact h.chained
    · intro v hv i j
      rcases List.mem_append.mp hv with hold | hnew
      · exact h.decision v hold i j
      · rw [List.mem_singleton.mp hnew]
    · intro i
      have hrank : s'.rankWrites i = s.rankWrites i := by
        rw [rankWrites_append (s := s) rfl]
        exact List.append_nil _
      rw [hrank]
      exact h.stream i
    · intro i
      rw [recordsOf_write]
      exact h.whole i
    · intro hend
      rw [hend] at hw
      exact absurd rfl hw

/-- The run lemma. -/
theorem streamInv_run (hout : c.disableOut = false) (labels : List (StatsLabel n)) :
    ∃ s, (StatsRun.start c n).run c labels = some s ∧ StreamInv c labels s ∧
      ((∃ l, labels = l ++ [.write true]) → ∀ i, (s.rank i).buf.pending = []) := by
  induction labels using List.reverseRecOn with
  | nil =>
      refine ⟨_, rfl, streamInv_start, ?_⟩
      rintro ⟨l, hl⟩
      simp at hl
  | append_singleton labels label ih =>
      obtain ⟨s, hrun, hinv, -⟩ := ih
      have hnext : (StatsRun.start c n).run c (labels ++ [label]) = s.step c label := by
        unfold StatsRun.run at hrun ⊢
        rw [List.foldlM_append, hrun]
        simp
      rw [hnext]
      cases label with
      | push i data =>
          obtain ⟨s', hs', hinv'⟩ := hinv.push hout i data
          refine ⟨s', hs', hinv', ?_⟩
          rintro ⟨l, hl⟩
          simp at hl
      | write endOfSim =>
          obtain ⟨s', hs', hinv', hend⟩ := hinv.write endOfSim
          refine ⟨s', hs', hinv', ?_⟩
          rintro ⟨l, hl⟩
          simp at hl
          exact hend hl.2

/-! ## What is taken -/

/-- A record is dropped if it does not fit behind the bytes that wait. -/
theorem FilledFromStart.pushOverflows_eq (hout : c.disableOut = false) {b : StStatsBuffer}
    (h : FilledFromStart c b) (data : List UInt8) :
    (!pushOverflows c b data) = decide (b.pending.length + data.length ≤ c.bufferSize) := by
  have hpos := h.writePos
  unfold pushOverflows
  rw [hout, h.length_pending, h.size, h.count, Bool.not_false, Bool.true_and, ← decide_not,
    decide_eq_decide]
  omega

theorem StatsRun.step_pushed {s s' : StatsRun n} {label : StatsLabel n}
    (hs : s.step c label = some s') (i : Fin n) : s.pushed i <+: s'.pushed i := by
  cases label with
  | push j data =>
      obtain ⟨r, -, hr⟩ := Option.bind_eq_some_iff.mp hs
      cases hr
      by_cases hij : i = j
      · subst hij
        show s.pushed i <+: Function.update s.pushed i _ i
        rw [Function.update_self]
        exact List.prefix_append _ _
      · exact ⟨[], (List.append_nil _).trans (Function.update_of_ne hij _ _).symm⟩
  | write endOfSim =>
      obtain ⟨r, -, hr⟩ := Option.bind_eq_some_iff.mp hs
      cases hr
      exact List.prefix_rfl

/-- What was pushed stays in the record of the run. -/
theorem StatsRun.run_pushed {s s' : StatsRun n} {labels : List (StatsLabel n)}
    (hs : s.run c labels = some s') (i : Fin n) : s.pushed i <+: s'.pushed i := by
  induction labels generalizing s with
  | nil =>
      cases hs
      exact List.prefix_rfl
  | cons label labels ih =>
      obtain ⟨s₁, hs₁, hrest⟩ := Option.bind_eq_some_iff.mp hs
      exact (step_pushed hs₁ i).trans (ih hrest)

theorem taken_of_run (hout : c.disableOut = false) {l l' : List (StatsLabel n)} {i : Fin n}
    {data : List UInt8} {s : StatsRun n}
    (hrun : (StatsRun.start c n).run c (l ++ .push i data :: l') = some s) :
    ∃ before, (StatsRun.start c n).run c l = some before ∧
      (s.pushed i)[(recordsOf i l).length]? =
        some (data, decide ((before.rank i).buf.pending.length + data.length ≤ c.bufferSize)) := by
  obtain ⟨before, hbefore, hinv, -⟩ := streamInv_run hout l
  refine ⟨before, hbefore, ?_⟩
  have hlen : (recordsOf i l).length = (before.pushed i).length := by
    rw [← hinv.whole i, List.length_map]
  have hlater : (before.run c (.push i data :: l')) = some s := by
    unfold StatsRun.run at hrun hbefore ⊢
    rw [List.foldlM_append, hbefore] at hrun
    exact hrun
  obtain ⟨after, hafter, hrest⟩ := Option.bind_eq_some_iff.mp hlater
  have hpushed : after.pushed i =
      before.pushed i ++ [(data, !pushOverflows c (before.rank i).buf data)] := by
    obtain ⟨r, -, hr⟩ := Option.bind_eq_some_iff.mp hafter
    cases hr
    exact Function.update_self ..
  obtain ⟨later, hs⟩ := StatsRun.run_pushed hrest i
  rw [← hs, hpushed, hlen, (hinv.filled i).pushOverflows_eq hout, List.append_assoc,
    List.getElem?_append_right le_rfl, Nat.sub_self]
  rfl

/-- What the instrumentation is to do in a run: in each round all ranks write or none does;
what is written tiles the file; in the file each rank finds its records as they were pushed,
but for what waits; a record is taken or dropped as a whole, dropped if and only if it does not
fit behind the bytes that wait, and the dropped bytes are counted; and behind the last round
nothing waits. -/
structure Lossless (c : StatsSetup) (labels : List (StatsLabel n)) (s : StatsRun n) : Prop where
  decision : ∀ w ∈ s.rounds, ∀ i j, (w i).isSome = (w j).isSome
  apart : s.writes.Pairwise Write.Apart
  covers : ∀ x, (∃ w ∈ s.writes, w.offset ≤ x ∧ x < w.offset + w.bytes.length) ↔
    x < totalBytes s.writes
  stream : ∀ (fs : Unit → File) (ws : List (Write Unit)), ws.Perm s.writes → ∀ i,
    ((s.rankWrites i).flatMap fun w => read (applyAll fs ws ()) w.offset w.bytes.length) ++
      (s.rank i).buf.pending = (s.accepted i).flatten
  whole : ∀ i, (s.pushed i).map (·.1) = recordsOf i labels
  taken : ∀ l i data l', labels = l ++ .push i data :: l' →
    ∃ before, (StatsRun.start c n).run c l = some before ∧
      (s.pushed i)[(recordsOf i l).length]? =
        some (data, decide ((before.rank i).buf.pending.length + data.length ≤ c.bufferSize))
  missed : ∀ i, (s.rank i).missedBytes = ((s.dropped i).map List.length).sum
  drained : (∃ l, labels = l ++ [.write true]) → ∀ i, (s.rank i).buf.pending = []

theorem StreamInv.lossless {labels : List (StatsLabel n)} {s : StatsRun n}
    (h : StreamInv c labels s) (hout : c.disableOut = false)
    (hrun : (StatsRun.start c n).run c labels = some s)
    (hlast : (∃ l, labels = l ++ [.write true]) → ∀ i, (s.rank i).buf.pending = []) :
    Lossless c labels s := by
  refine ⟨h.decision, h.chained.pairwise, ?_, ?_, h.whole, ?_, h.missed, hlast⟩
  · intro x
    rw [h.chained.covers x]
    omega
  · intro fs ws hperm i
    rw [← h.stream i]
    congr 1
    apply List.flatMap_congr
    intro w hw
    have hmem : w ∈ s.writes := by
      obtain ⟨v, hv, hwv⟩ := List.mem_filterMap.mp hw
      refine List.mem_flatMap.mpr ⟨v, hv, ?_⟩
      rw [List.reduceOption_mem_iff, ← hwv]
      exact List.mem_ofFn.mpr ⟨i, rfl⟩
    exact read_of_perm h.chained.pairwise hperm hmem
  · rintro l i data l' rfl
    exact taken_of_run hout hrun

/-- In every run with output enabled the stream is lossless and ordered. -/
theorem stats_lossless (c : StatsSetup) (hout : c.disableOut = false) (n : Nat)
    (labels : List (StatsLabel n)) :
    ∃ s, (StatsRun.start c n).run c labels = some s ∧ Lossless c labels s := by
  obtain ⟨s, hrun, hinv, hlast⟩ := streamInv_run hout labels
  exact ⟨s, hrun, hinv.lossless hout hrun hlast⟩

/-- Buffers of three bytes. -/
def threeBytes : StatsSetup := ⟨3, by decide, false, fun _ => false⟩

/-- Two ranks, of which the first drops a record of four bytes. -/
def twoRanks : List (StatsLabel 2) :=
  [.push 0 [1, 2], .push 1 [3], .push 0 [4, 5, 6, 7], .write false, .push 1 [8, 9], .write true]

theorem stats_lossless_two :
    ∃ s, (StatsRun.start threeBytes 2).run threeBytes twoRanks = some s ∧
      Lossless threeBytes twoRanks s ∧ s.dropped 0 = [[4, 5, 6, 7]] := by
  obtain ⟨s, hs, h⟩ := stats_lossless threeBytes rfl 2 twoRanks
  refine ⟨s, hs, h, ?_⟩
  have hrun : ((StatsRun.start threeBytes 2).run threeBytes twoRanks).any
      (fun s => decide (s.dropped 0 = [[4, 5, 6, 7]])) = true := by
    decide +kernel
  rw [hs] at hrun
  exact of_decide_eq_true hrun

end Ross

import Ross.Core.DeltaState

/-!
# Snapshots restored from compressed differences

`g_tw_delta_sz` is the largest `state_sz` given to `tw_lp_settype`; `tw_lp_setup_types` leaves it
alone.  All three delta buffers have the size of its compress bound, also the one that LZ4 takes
for its own state.  Where that is enough, the difference to a snapshot brings the snapshot back.
-/

namespace Ross.DeltaState

open ByteBuffer

variable {lz4 : Lz4} {buddyAlloc : BuddyAlloc} {pe pe' : DeltaPe} {g g' : Registry}
variable {curState s₀ s₁ : Bytes} {stateSz nlp analysisNlp : Nat}

/-! ## Sizes -/

theorem le_callocSize (sz : Nat) : sz ≤ callocSize sz := by
  unfold callocSize
  split <;> omega

theorem lz4CompressBound_eq (h : stateSz ≤ lz4MaxInputSize) :
    lz4CompressBound stateSz = stateSz + stateSz / 255 + 16 := by
  have hmod : stateSz % 2 ^ 32 = stateSz :=
    Nat.mod_eq_of_lt (Nat.lt_of_le_of_lt h (by decide))
  unfold lz4CompressBound
  rw [hmod, if_neg (Nat.not_lt_of_le h)]

/-- The largest size among the calls of `tw_lp_settype`. -/
def largestSet (calls : List RegisterCall) : Nat :=
  calls.foldl (fun largest call =>
    match call with
    | .settype _ stateSz => if largest < stateSz then stateSz else largest
    | .setupTypes _ => largest) 0

/-- The registry after a number of calls. -/
def runCalls (nlp analysisNlp : Nat) : Registry → List RegisterCall → Except DeltaError Registry
  | g, [] => .ok g
  | g, call :: calls =>
      match g.call nlp analysisNlp call with
      | .error e => .error e
      | .ok g => runCalls nlp analysisNlp g calls

theorem runCalls_deltaSz {calls : List RegisterCall}
    (h : runCalls nlp analysisNlp g calls = .ok g') :
    g'.deltaSz = calls.foldl (fun largest call =>
      match call with
      | .settype _ stateSz => if largest < stateSz then stateSz else largest
      | .setupTypes _ => largest) g.deltaSz := by
  induction calls generalizing g with
  | nil =>
      cases h
      rfl
  | cons call calls ih =>
      unfold runCalls at h
      split at h
      · cases h
      next g₁ hcall =>
        rw [ih h, List.foldl_cons]
        cases call with
        | settype id sz =>
            by_cases hid : nlp + analysisNlp ≤ id
            · rw [Registry.call, if_pos hid] at hcall
              cases hcall
            · rw [Registry.call, if_neg hid] at hcall
              cases hcall
              rfl
        | setupTypes sizes =>
            cases hcall
            rfl

/-- `g_tw_delta_sz` depends on the calls of `tw_lp_settype` alone. -/
theorem deltaSz_eq {calls : List RegisterCall}
    (h : runCalls nlp analysisNlp Registry.start calls = .ok g) : g.deltaSz = largestSet calls :=
  runCalls_deltaSz h

/-! ## Snapshot, difference, restoration -/

/-- The buffers of one PE at two times. -/
structure SameBuffers (pe pe' : DeltaPe) : Prop where
  deltaSz : pe'.deltaSz = pe.deltaSz
  buffer0 : pe'.buffer0.length = pe.buffer0.length
  buffer1 : pe'.buffer1.length = pe.buffer1.length
  buffer2 : pe'.buffer2.length = pe.buffer2.length

/-- `buddy_alloc` always finds a block. -/
def Serves (buddyAlloc : BuddyAlloc) : Prop :=
  ∀ n, ∃ block, buddyAlloc n = some block ∧ n ≤ block.length

/-- A snapshot of `s₀`, the difference of the state `s₁` to it, and any later restoration with the
event that holds it bring back `s₀`. -/
def RoundTrips (lz4 : Lz4) (pe : DeltaPe) (stateSz : Nat) : Prop :=
  ∀ (pe₀ : DeltaPe) (buddyAlloc : BuddyAlloc) (s₀ s₁ : Bytes), SameBuffers pe pe₀ →
    Serves buddyAlloc → s₀.length = stateSz → s₁.length = stateSz →
    ∃ pe₁ pe₂ event, twSnapshot pe₀ s₀ stateSz = .ok pe₁ ∧
      twSnapshotDelta lz4 buddyAlloc pe₁ s₁ stateSz = .ok (pe₂, event) ∧
      SameBuffers pe pe₂ ∧
      ∀ pe₃, SameBuffers pe pe₃ → ∃ pe₄, SameBuffers pe pe₄ ∧
        twSnapshotRestore lz4 pe₃ event s₁ stateSz = .ok (pe₄, s₀)

/-- The delta buffers have room for the copies, for what compression may write and for the state
of LZ4. -/
structure Room (pe : DeltaPe) (stateSz : Nat) : Prop where
  copy : stateSz ≤ pe.buffer0.length
  bound0 : lz4CompressBound stateSz ≤ pe.buffer0.length
  bound1 : lz4CompressBound stateSz ≤ pe.buffer1.length
  lz4State : lz4SizeofState ≤ pe.buffer2.length

/-- The size of the state is one that LZ4 takes, its bound is within the one the buffers have, and
that one is not less than the state of LZ4. -/
structure Suffices (deltaSz stateSz : Nat) : Prop where
  input : stateSz ≤ lz4MaxInputSize
  bound : lz4CompressBound stateSz ≤ lz4CompressBound deltaSz
  lz4State : lz4SizeofState ≤ callocSize (lz4CompressBound deltaSz)

theorem Suffices.room (h : Suffices g.deltaSz stateSz) : Room (twDeltaAlloc g) stateSz := by
  have hb := lz4CompressBound_eq h.input
  have hc := le_callocSize (lz4CompressBound g.deltaSz)
  have hlen : (List.replicate (callocSize (lz4CompressBound g.deltaSz)) (0 : UInt8)).length =
      callocSize (lz4CompressBound g.deltaSz) := List.length_replicate
  have hbound := h.bound
  have hle : lz4CompressBound stateSz ≤ callocSize (lz4CompressBound g.deltaSz) :=
    Nat.le_trans hbound hc
  refine ⟨?_, ?_, ?_, ?_⟩
  · show stateSz ≤ (List.replicate _ _).length
    rw [hlen]
    omega
  · show _ ≤ (List.replicate _ _).length
    rw [hlen]
    exact hle
  · show _ ≤ (List.replicate _ _).length
    rw [hlen]
    exact hle
  · show _ ≤ (List.replicate _ _).length
    rw [hlen]
    exact h.lz4State

theorem twSnapshot_ok (hne : pe.buffer0 ≠ []) (hroom : stateSz ≤ pe.buffer0.length)
    (hs : s₀.length = stateSz) :
    twSnapshot pe s₀ stateSz = .ok { pe with buffer0 := copyInto pe.buffer0 s₀ } := by
  unfold twSnapshot
  rw [if_neg hne, if_neg (Nat.not_lt_of_le hroom), ← hs, List.take_length]

/-- The difference of the state to the snapshot in the buffer is compressed. -/
theorem twSnapshotDelta_ok {block : Bytes} (hroom : Room pe stateSz)
    (hcap : pe.deltaSz ≤ pe.buffer1.length) (hin : stateSz ≤ lz4MaxInputSize)
    (hs₀ : pe.buffer0.take stateSz = s₀) (hs₁ : s₁.length = stateSz)
    (hblock : buddyAlloc (lz4.compress (List.zipWith (· - ·) s₁ s₀) pe.deltaSz).length =
      some block) :
    ∃ pe', twSnapshotDelta lz4 buddyAlloc pe s₁ stateSz = .ok (pe',
        ⟨copyInto block (lz4.compress (List.zipWith (· - ·) s₁ s₀) pe.deltaSz),
          (lz4.compress (List.zipWith (· - ·) s₁ s₀) pe.deltaSz).length⟩) ∧
      pe'.deltaSz = pe.deltaSz ∧ pe'.buffer2 = pe.buffer2 ∧
      pe'.buffer0.length = pe.buffer0.length ∧ pe'.buffer1 =
        copyInto pe.buffer1 (lz4.compress (List.zipWith (· - ·) s₁ s₀) pe.deltaSz) := by
  have hlen₀ : s₀.length = stateSz := by
    rw [← hs₀]
    exact List.length_take_of_le hroom.copy
  have hdelta : (List.zipWith (· - ·) s₁ s₀).length = stateSz := by
    rw [List.length_zipWith, hs₁, hlen₀, Nat.min_self]
  have hmod : stateSz % 2 ^ 32 = stateSz :=
    Nat.mod_eq_of_lt (Nat.lt_of_le_of_lt hin (by decide))
  have hsrc : compressFast lz4 (copyInto pe.buffer0 (List.zipWith (· - ·) s₁ s₀)) stateSz
      pe.deltaSz = lz4.compress (List.zipWith (· - ·) s₁ s₀) pe.deltaSz := by
    unfold compressFast
    rw [hmod, if_neg (Nat.not_lt_of_le hin), take_copyInto (Nat.le_of_eq hdelta.symm),
      List.take_of_length_le (Nat.le_of_eq hdelta)]
  have hbuf : ¬ (pe.buffer2.length < lz4SizeofState ∨ pe.buffer1.length < pe.deltaSz) := by
    have := hroom.lz4State
    omega
  refine ⟨{ pe with
    buffer0 := copyInto pe.buffer0 (List.zipWith (· - ·) s₁ s₀)
    buffer1 := copyInto pe.buffer1 (lz4.compress (List.zipWith (· - ·) s₁ s₀) pe.deltaSz) },
    ?_, rfl, rfl, length_copyInto (hdelta.symm ▸ hroom.copy), rfl⟩
  unfold twSnapshotDelta
  rw [if_neg (Nat.not_lt_of_le hroom.copy), hs₀, List.take_of_length_le (Nat.le_of_eq hs₁)]
  dsimp only
  rw [if_neg hbuf, hsrc, hblock]

/-- The difference is taken away from the state. -/
theorem twSnapshotRestore_ok (event : DeltaEvent) {delta : Bytes} (hroom : Room pe stateSz)
    (hin : stateSz ≤ lz4MaxInputSize) (hs₁ : s₁.length = stateSz) (hd : delta.length = stateSz)
    (hout : lz4.decompress event.deltaBuddy stateSz = some delta) :
    twSnapshotRestore lz4 pe event s₁ stateSz =
      .ok ({ pe with buffer0 := copyInto pe.buffer0 delta }, List.zipWith (· - ·) s₁ delta) := by
  have hlt : stateSz < 2 ^ 32 := Nat.lt_of_le_of_lt hin (by decide)
  have hfit : delta.length ≤ pe.buffer0.length := hd ▸ hroom.copy
  have htake : (copyInto pe.buffer0 delta).take stateSz = delta := by
    rw [← hd, take_length_copyInto]
  have hlen : (List.zipWith (· - ·) s₁ delta).length = stateSz := by
    rw [List.length_zipWith, hs₁, hd, Nat.min_self]
  have hstate : copyInto s₁ (List.zipWith (· - ·) s₁ delta) = List.zipWith (· - ·) s₁ delta := by
    rw [copyInto, hlen, List.drop_of_length_le (Nat.le_of_eq hs₁), List.append_nil]
  unfold twSnapshotRestore
  rw [Nat.mod_eq_of_lt hlt, hout]
  dsimp only
  rw [if_neg (Nat.not_lt_of_le hfit), if_neg (Nat.not_le_of_lt hlt), length_copyInto hfit,
    if_neg (Nat.not_lt_of_le hroom.copy), htake, List.take_of_length_le (Nat.le_of_eq hs₁), hstate]

/-- Where the sizes suffice the snapshot comes back. -/
theorem Suffices.roundTrips (h : Suffices g.deltaSz stateSz) (hl : lz4.Documented) :
    RoundTrips lz4 (twDeltaAlloc g) stateSz := by
  intro pe₀ buddyAlloc s₀ s₁ hsame hserves hs₀ hs₁
  have hroom := h.room
  have room : ∀ pe', SameBuffers (twDeltaAlloc g) pe' → Room pe' stateSz := by
    intro pe' hp
    refine ⟨?_, ?_, ?_, ?_⟩
    · rw [hp.buffer0]
      exact hroom.copy
    · rw [hp.buffer0]
      exact hroom.bound0
    · rw [hp.buffer1]
      exact hroom.bound1
    · rw [hp.buffer2]
      exact hroom.lz4State
  have hne : pe₀.buffer0 ≠ [] := by
    intro hnil
    have hb := (room pe₀ hsame).bound0
    rw [hnil, lz4CompressBound_eq h.input] at hb
    exact absurd hb (by simp)
  have hfit₀ : s₀.length ≤ pe₀.buffer0.length := hs₀ ▸ (room pe₀ hsame).copy
  have hsame₁ : SameBuffers (twDeltaAlloc g) { pe₀ with buffer0 := copyInto pe₀.buffer0 s₀ } :=
    ⟨hsame.deltaSz, (length_copyInto hfit₀).trans hsame.buffer0, hsame.buffer1, hsame.buffer2⟩
  have hcap₀ : pe₀.deltaSz = lz4CompressBound g.deltaSz := hsame.deltaSz
  have hcap : pe₀.deltaSz ≤ pe₀.buffer1.length := by
    rw [hcap₀, hsame.buffer1]
    show _ ≤ (List.replicate _ _).length
    rw [List.length_replicate]
    exact le_callocSize _
  have hd : (List.zipWith (· - ·) s₁ s₀).length = stateSz := by
    rw [List.length_zipWith, hs₁, hs₀, Nat.min_self]
  obtain ⟨hlen, hout⟩ := hl.succeeds (List.zipWith (· - ·) s₁ s₀) pe₀.deltaSz (hd ▸ h.input)
    (by rw [hd, hcap₀]; exact h.bound)
  obtain ⟨block, hblock, -⟩ :=
    hserves (lz4.compress (List.zipWith (· - ·) s₁ s₀) pe₀.deltaSz).length
  have htake : (copyInto pe₀.buffer0 s₀).take stateSz = s₀ := by
    rw [← hs₀, take_length_copyInto]
  obtain ⟨pe₂, hdelta, hsz, hb2, hb0, hb1⟩ := twSnapshotDelta_ok (room _ hsame₁) hcap h.input htake
    hs₁ hblock
  have hfits := hl.fits (List.zipWith (· - ·) s₁ s₀) pe₀.deltaSz
  refine ⟨_, pe₂, _, twSnapshot_ok hne (room pe₀ hsame).copy hs₀, hdelta,
    ⟨hsz.trans hsame₁.deltaSz, hb0.trans hsame₁.buffer0, ?_, by rw [hb2]; exact hsame₁.buffer2⟩, ?_⟩
  · rw [hb1, length_copyInto (Nat.le_trans hfits hcap)]
    exact hsame.buffer1
  · intro pe₃ hsame₃
    have hdec : lz4.decompress (copyInto block (lz4.compress (List.zipWith (· - ·) s₁ s₀)
        pe₀.deltaSz)) stateSz = some (List.zipWith (· - ·) s₁ s₀) := by
      rw [copyInto, ← hd]
      exact hl.inverts _ _ _ hout
    have hres := twSnapshotRestore_ok ⟨copyInto block (lz4.compress
      (List.zipWith (· - ·) s₁ s₀) pe₀.deltaSz), (lz4.compress (List.zipWith (· - ·) s₁ s₀)
      pe₀.deltaSz).length⟩ (room pe₃ hsame₃) h.input hs₁ hd hdec
    rw [zipWith_sub_sub (fun a b => by grind) (hs₁.trans hs₀.symm)] at hres
    refine ⟨{ pe₃ with buffer0 := copyInto pe₃.buffer0 (List.zipWith (· - ·) s₁ s₀) },
      ⟨hsame₃.deltaSz, ?_, hsame₃.buffer1, hsame₃.buffer2⟩, hres⟩
    exact (length_copyInto (hd ▸ (room pe₃ hsame₃).copy)).trans hsame₃.buffer0

/-! ## Where the sizes do not suffice -/

/-- An LZ4 that stores its input behind a mark and gives up when the destination has not the bytes
of the bound. -/
def storing : Lz4 where
  compress src cap :=
    if src.length ≤ lz4MaxInputSize ∧ lz4CompressBound src.length ≤ cap then 1 :: src else []
  decompress bytes n :=
    match bytes with
    | [] => none
    | _ :: rest => if n ≤ rest.length then some (rest.take n) else none

theorem storing_documented : storing.Documented where
  succeeds src cap hin hcap := by
    have hb := lz4CompressBound_eq hin
    unfold storing
    dsimp only
    rw [if_pos ⟨hin, hcap⟩, List.length_cons]
    exact ⟨by omega, List.cons_ne_nil _ _⟩
  fits src cap := by
    unfold storing
    dsimp only
    split
    next h =>
      have hb := lz4CompressBound_eq h.1
      have hle := h.2
      rw [List.length_cons]
      omega
    · exact Nat.zero_le _
  inverts src cap rest h := by
    unfold storing at h ⊢
    dsimp only at h ⊢
    split at h
    next hok =>
      rw [if_pos hok]
      dsimp only [List.cons_append]
      rw [if_pos (by rw [List.length_append]; omega), List.take_left]
    · exact absurd rfl h
  originalSize bytes n out h := by
    unfold storing at h
    dsimp only at h
    split at h
    · cases h
    · split at h
      next hle =>
        cases h
        exact List.length_take_of_le hle
      · cases h

/-- What `tw_snapshot_delta` leaves in the event is what it compressed. -/
theorem twSnapshotDelta_buddy {event : DeltaEvent}
    (h : twSnapshotDelta lz4 (fun n => some (List.replicate n 0)) pe curState stateSz =
      .ok (pe', event)) (hs : curState.length = stateSz) :
    ∃ src : Bytes, stateSz ≤ src.length ∧
      event.deltaBuddy = compressFast lz4 src stateSz pe.deltaSz := by
  unfold twSnapshotDelta at h
  split at h
  · cases h
  next hlen =>
    have hle := Nat.le_of_not_lt hlen
    have hdelta : (List.zipWith (· - ·) (curState.take stateSz)
        (pe.buffer0.take stateSz)).length = stateSz := by
      rw [List.length_zipWith, List.length_take_of_le (Nat.le_of_eq hs.symm),
        List.length_take_of_le hle, Nat.min_self]
    dsimp only at h
    split at h
    · cases h
    · cases h
      refine ⟨copyInto pe.buffer0 (List.zipWith (· - ·) (curState.take stateSz)
        (pe.buffer0.take stateSz)), ?_, ?_⟩
      · rw [length_copyInto (hdelta.symm ▸ hle)]
        exact hle
      · dsimp only
        rw [copyInto, List.drop_of_length_le (Nat.le_of_eq List.length_replicate),
          List.append_nil]

/-- A restoration ends only when something was decompressed and the counter can end. -/
theorem twSnapshotRestore_parts {event : DeltaEvent}
    (h : twSnapshotRestore lz4 pe event curState stateSz = .ok (pe', s₀)) :
    stateSz < 2 ^ 32 ∧ lz4.decompress event.deltaBuddy stateSz ≠ none := by
  unfold twSnapshotRestore at h
  split at h
  · cases h
  next out hout =>
    split at h
    · cases h
    · dsimp only at h
      split at h
      · cases h
      next hlt =>
        have hlt := Nat.lt_of_not_le hlt
        rw [Nat.mod_eq_of_lt hlt] at hout
        refine ⟨hlt, fun hnone => ?_⟩
        rw [hout] at hnone
        cases hnone

/-- With nothing compressed there is nothing to restore. -/
theorem suffices_of_roundTrips (hroom : Room (twDeltaAlloc g) stateSz)
    (h : RoundTrips storing (twDeltaAlloc g) stateSz) : Suffices g.deltaSz stateSz := by
  have hzero : (List.replicate stateSz (0 : UInt8)).length = stateSz := List.length_replicate
  have hserves : Serves fun n => some (List.replicate n 0) :=
    fun n => ⟨_, rfl, Nat.le_of_eq List.length_replicate.symm⟩
  obtain ⟨pe₁, pe₂, event, hsnap, hdelta, -, hrest⟩ := h (twDeltaAlloc g) _ _ _
    ⟨rfl, rfl, rfl, rfl⟩ hserves hzero hzero
  obtain ⟨pe₄, -, hres⟩ := hrest (twDeltaAlloc g) ⟨rfl, rfl, rfl, rfl⟩
  have hlz : lz4SizeofState ≤ callocSize (lz4CompressBound g.deltaSz) := by
    have hl : lz4SizeofState ≤ (List.replicate _ _).length := hroom.lz4State
    rw [List.length_replicate] at hl
    exact hl
  have hcap : pe₁.deltaSz = lz4CompressBound g.deltaSz := by
    unfold twSnapshot at hsnap
    split at hsnap
    · cases hsnap
    · split at hsnap
      · cases hsnap
      · cases hsnap
        rfl
  obtain ⟨src, hsrc, hbuddy⟩ := twSnapshotDelta_buddy hdelta hzero
  obtain ⟨hlt, hdec⟩ := twSnapshotRestore_parts hres
  rw [hbuddy, hcap] at hdec
  have hlen : (src.take stateSz).length = stateSz := List.length_take_of_le hsrc
  unfold compressFast at hdec
  rw [Nat.mod_eq_of_lt hlt] at hdec
  by_cases hin : lz4MaxInputSize < stateSz
  · rw [if_pos hin] at hdec
    exact absurd rfl hdec
  · rw [if_neg hin] at hdec
    have hin := Nat.le_of_not_lt hin
    refine ⟨hin, ?_, hlz⟩
    by_contra hbound
    have hempty : storing.compress (src.take stateSz) (lz4CompressBound g.deltaSz) = [] := by
      unfold storing
      dsimp only
      rw [if_neg]
      rintro ⟨-, hle⟩
      rw [hlen] at hle
      exact hbound hle
    rw [hempty] at hdec
    exact hdec rfl

/-! ## Every LP -/

/-- The buffers have room for the LP's state and every snapshot of it comes back, with any LZ4 that
does what its header promises. -/
def Saves (g : Registry) (stateSz : Nat) : Prop :=
  Room (twDeltaAlloc g) stateSz ∧
    ∀ lz4 : Lz4, lz4.Documented → RoundTrips lz4 (twDeltaAlloc g) stateSz

/-- Delta state saving works for every LP if and only if every `state_sz` suffices with the
largest one given to `tw_lp_settype`. -/
theorem saves_iff_suffices {calls : List RegisterCall}
    (h : runCalls nlp analysisNlp Registry.start calls = .ok g) :
    (∀ lp stateSz, g.types lp = some stateSz → Saves g stateSz) ↔
      ∀ lp stateSz, g.types lp = some stateSz → Suffices (largestSet calls) stateSz := by
  rw [← deltaSz_eq h]
  constructor
  · intro hall lp stateSz hlp
    obtain ⟨hroom, htrip⟩ := hall lp stateSz hlp
    exact suffices_of_roundTrips hroom (htrip storing storing_documented)
  · intro hall lp stateSz hlp
    have hs := hall lp stateSz hlp
    exact ⟨hs.room, fun lz4 hl => hs.roundTrips hl⟩

/-- Of two LPs with 20000 bytes one is registered with `tw_lp_settype`. -/
theorem saves_twenty_thousand : ∃ g : Registry,
    runCalls 2 0 Registry.start [.setupTypes fun _ => 20000, .settype 0 20000] = .ok g ∧
      g.types 1 = some 20000 ∧ ∀ lp stateSz, g.types lp = some stateSz → Saves g stateSz := by
  have hrun : runCalls 2 0 Registry.start [.setupTypes fun _ => 20000, .settype 0 20000] =
    .ok ⟨Function.update (fun i => if i < 2 then some 20000 else none) 0 (some 20000), 20000⟩ := rfl
  refine ⟨_, hrun, rfl, (saves_iff_suffices hrun).mpr fun lp stateSz hlp => ?_⟩
  have hsz : stateSz = 20000 := by
    by_cases h0 : lp = 0
    · subst h0
      dsimp only at hlp
      rw [Function.update_self] at hlp
      exact (Option.some.inj hlp).symm
    · dsimp only at hlp
      rw [Function.update_of_ne h0] at hlp
      split at hlp
      · exact (Option.some.inj hlp).symm
      · cases hlp
  rw [hsz]
  exact ⟨by decide, Nat.le_refl _, by decide⟩

/-- A type of 8 bytes leaves 24 bytes for the state of LZ4; one of 20000 bytes that only
`tw_lp_setup_types` registers leaves 16 bytes for the copy. -/
theorem delta_buffers_too_small :
    (∃ g : Registry, runCalls 1 0 Registry.start [.settype 0 8] = .ok g ∧ g.types 0 = some 8 ∧
      (twDeltaAlloc g).buffer2.length = 24 ∧ ¬ Saves g 8) ∧
    ∃ g : Registry, runCalls 1 0 Registry.start [.setupTypes fun _ => 20000] = .ok g ∧
      g.types 0 = some 20000 ∧ (twDeltaAlloc g).buffer0.length = 16 ∧ ¬ Saves g 20000 :=
  ⟨⟨_, rfl, rfl, by decide, fun h => absurd h.1.lz4State (by decide)⟩,
    ⟨_, rfl, rfl, by decide, fun h => absurd h.1.copy (by decide)⟩⟩

end Ross.DeltaState

import Ross.Core.Gvt
import Ross.Lib.Transition

/-!
# The bound of a tie lineage

`event_tiebreaker` has `MAX_TIE_CHAIN` elements.  The four functions that build
signatures are run here on a memory of signatures, with the elements of
`event_tiebreaker` they touch and the outcome of the assertions they make.
-/

namespace Ross

open Transition

variable {T : Type} [TwStime T]

/-! ## The calls -/

/-- The signatures in memory (of events, of `last_sig`, `GVT_sig`, the trigger of
the hook and the buffers of the reduction), by place. -/
abbrev SigMemory (T : Type) := Nat → TwEventSig T

/-- A call that builds a signature, with the places it reads and writes:
`tw_event_new_user_prio` for the event at `e` while the event at `now` is the
current one, `tw_copy_event_sig`, `tw_trigger_gvt_hook_now` for the trigger at
`sigAt` by an LP whose KP has its `last_sig` at `now`, and `find_min_sig`. -/
inductive SigCall (T : Type)
  | eventNew (e now : Nat) (recvTs offsetTs prio u : T)
  | copyEventSig (e sig : Nat)
  | triggerGvtHookNow (sigAt now : Nat)
  | findMinSig (inSig inoutSig : Nat)

/-- What a call leaves behind: the memory, the indices it used on an
`event_tiebreaker`, and whether its assertions held. -/
structure SigEffect (T : Type) where
  memory : SigMemory T
  indices : List Nat
  asserted : Bool

namespace SigMemory

/-- `tw_copy_event_sig`. -/
def twCopyEventSig (s : SigMemory T) (e sig : Nat) : SigEffect T where
  memory := Function.update s e (s sig)
  indices := List.range (s sig).tieLineageLength
  asserted := true

/-- The signature part of `tw_event_new_user_prio`. -/
def eventNewSig (s : SigMemory T) (e now : Nat) (recvTs offsetTs prio u : T) :
    Except TwError (SigEffect T) :=
  if offsetTs = 0 ∧ maxTieChain ≤ (s now).tieLineageLength then .error .maximumTieChain
  else .ok {
    memory := Function.update s e ⟨recvTs, prio, tieLineage (s now) offsetTs u⟩
    indices :=
      if offsetTs = 0 then List.range (s now).tieLineageLength ++ [(s now).tieLineageLength]
      else [0]
    asserted := true }

/-- `tw_trigger_gvt_hook_now`: the length of the old trigger is checked, the
signature of the caller is copied and extended. -/
def triggerGvtHookNowSig (s : SigMemory T) (sigAt now : Nat) : Except TwError (SigEffect T) :=
  if maxTieChain ≤ (s sigAt).tieLineageLength then .error .maximumTieChain
  else
    let r := s.twCopyEventSig sigAt now
    let sig := r.memory sigAt
    .ok {
      memory := Function.update r.memory sigAt
        { sig with eventTiebreaker := sig.eventTiebreaker ++ [0] }
      indices := r.indices ++ [sig.tieLineageLength]
      asserted := r.asserted }

/-- One turn of `find_min_sig`. -/
def findMinSigTurn (s : SigMemory T) (inSig inoutSig : Nat) : SigEffect T :=
  let compared :=
    List.range (min (s inSig).tieLineageLength (s inoutSig).tieLineageLength)
  let asserted := decide ((s inSig).tieLineageLength < maxTieChain) &&
    decide ((s inoutSig).tieLineageLength < maxTieChain)
  if twEventSigComparePtr (s inSig) (s inoutSig) < 0 then
    { memory := Function.update s inoutSig (s inSig)
      indices := compared ++ List.range (s inSig).tieLineageLength
      asserted }
  else { memory := s, indices := compared, asserted }

/-- Run a call. -/
def call (s : SigMemory T) : SigCall T → Except TwError (SigEffect T)
  | .eventNew e now recvTs offsetTs prio u => s.eventNewSig e now recvTs offsetTs prio u
  | .copyEventSig e sig => .ok (s.twCopyEventSig e sig)
  | .triggerGvtHookNow sigAt now => s.triggerGvtHookNowSig sigAt now
  | .findMinSig inSig inoutSig => .ok (s.findMinSigTurn inSig inoutSig)

/-- A call that does not stop the program. -/
def step (s : SigMemory T) (c : SigCall T) : Except TwError (SigMemory T) :=
  match s.call c with
  | .ok r => if r.asserted then .ok r.memory else .error .assertFailed
  | .error e => .error e

/-- Zeroed signatures, and the ones a program starts with, have at most one
element in their lineage. -/
def Fresh (s : SigMemory T) : Prop := ∀ i, (s i).tieLineageLength ≤ 1

/-- No signature is longer than its array. -/
def Bounded (s : SigMemory T) : Prop := ∀ i, (s i).tieLineageLength ≤ maxTieChain

/-- A call stopped with the error of a tie chain too long, or it left only
signatures that fit, used only elements that exist and passed its assertions. -/
def SoundResult : Except TwError (SigEffect T) → Prop
  | .ok r => Bounded r.memory ∧ (∀ i ∈ r.indices, i < maxTieChain) ∧ r.asserted = true
  | .error e => e = .maximumTieChain

def Sound (s : SigMemory T) (c : SigCall T) : Prop := SoundResult (s.call c)

/-- A trigger is not moved to a signature of maximal length (unless the old one
is, which stops the program), and the reduction gets no such operand. -/
def LineageOk (s : SigMemory T) : SigCall T → Prop
  | .triggerGvtHookNow sigAt now =>
      (s sigAt).tieLineageLength = maxTieChain ∨ (s now).tieLineageLength ≠ maxTieChain
  | .findMinSig inSig inoutSig =>
      (s inSig).tieLineageLength ≠ maxTieChain ∧ (s inoutSig).tieLineageLength ≠ maxTieChain
  | _ => True

instance (s : SigMemory T) (c : SigCall T) : Decidable (LineageOk s c) :=
  match c with
  | .eventNew .. => isTrue trivial
  | .copyEventSig .. => isTrue trivial
  | .triggerGvtHookNow .. => inferInstanceAs (Decidable (_ ∨ _))
  | .findMinSig .. => inferInstanceAs (Decidable (_ ∧ _))

/-- `tw_event_new_user_prio` writes the signature that this call writes. -/
theorem eventNewSig_newSig {S M R : Type} (m : SimModel T S M R) (p : Pe T S M R)
    (s : SigMemory T) {e now : Nat} (hnow : s now = p.curSig) (offsetTs prio : T) (sender : Nat)
    {r : SigEffect T}
    (h : s.eventNewSig e now (p.twNow m sender + offsetTs) offsetTs prio
      (m.randUnif (p.lp sender).coreRng).1 = .ok r) :
    r.memory e = p.newSig m offsetTs sender prio := by
  unfold eventNewSig at h
  split at h
  · cases h
  · cases h
    simp only [Function.update_self, hnow]
    rfl

/-- And so does `tw_trigger_gvt_hook_now`. -/
theorem triggerGvtHookNowSig_sigAt {S M R : Type} {m : SimModel T S M R} {p p' : Pe T S M R}
    {lp : Nat} (s : SigMemory T) {sigAt now : Nat} (hnow : s now = p.lastSig (m.kpOf lp))
    (hc : m.synch ≠ .conservative) (hd : m.synch ≠ .optimisticDebug)
    (hp : p.twTriggerGvtHookNow m lp = .ok p') {r : SigEffect T}
    (h : s.triggerGvtHookNowSig sigAt now = .ok r) : r.memory sigAt = p'.trigger.sigAt := by
  unfold triggerGvtHookNowSig at h
  unfold Pe.twTriggerGvtHookNow at hp
  rw [if_neg (not_or.mpr ⟨hc, hd⟩)] at hp
  split at h
  · cases h
  split at hp
  · cases hp
  split at hp
  · cases hp
  · cases h
    cases hp
    dsimp only [twCopyEventSig]
    rw [Function.update_self, Function.update_self, hnow]
    rfl

/-! ## What the calls keep -/

variable {s : SigMemory T}

section

omit [TwStime T]

theorem Fresh.bounded (h : Fresh s) : Bounded s :=
  fun i => (h i).trans (by decide)

/-- A signature that fits and is not of the maximal length leaves an element free. -/
theorem Bounded.ne_iff (h : Bounded s) (i : Nat) :
    (s i).tieLineageLength ≠ maxTieChain ↔ (s i).tieLineageLength < maxTieChain :=
  (h i).lt_iff_ne.symm

theorem Bounded.update (h : Bounded s) {sig : TwEventSig T}
    (hsig : sig.tieLineageLength ≤ maxTieChain) (e : Nat) : Bounded (Function.update s e sig) := by
  intro i
  by_cases hi : i = e
  · subst hi
    rwa [Function.update_self]
  · rw [Function.update_of_ne hi]
    exact h i

theorem mem_range_lt {n i : Nat} (hn : n ≤ maxTieChain) (hi : i ∈ List.range n) :
    i < maxTieChain :=
  (List.mem_range.mp hi).trans_le hn

theorem twCopyEventSig_self (s : SigMemory T) (e sig : Nat) :
    (s.twCopyEventSig e sig).memory e = s sig := Function.update_self ..

theorem copyEventSig_sound (h : Bounded s) (e sig : Nat) :
    Bounded (s.twCopyEventSig e sig).memory ∧
      ∀ i ∈ (s.twCopyEventSig e sig).indices, i < maxTieChain :=
  ⟨h.update (h sig) e, fun _ hi => mem_range_lt (h sig) hi⟩

end

theorem tieLineage_length_le {now : TwEventSig T} {offsetTs : T} (recvTs prio u : T)
    (h : offsetTs = 0 → now.tieLineageLength < maxTieChain) :
    TwEventSig.tieLineageLength ⟨recvTs, prio, tieLineage now offsetTs u⟩ ≤ maxTieChain := by
  unfold tieLineage TwEventSig.tieLineageLength
  by_cases h0 : offsetTs = 0
  · rw [if_pos h0, List.length_append, List.length_singleton]
    exact h h0
  · rw [if_neg h0, List.length_singleton]
    decide

theorem eventNew_sound (h : Bounded s) (e now : Nat) (recvTs offsetTs prio u : T) :
    Sound s (.eventNew e now recvTs offsetTs prio u) := by
  show SoundResult (s.eventNewSig e now recvTs offsetTs prio u)
  unfold eventNewSig
  split
  · rfl
  next hlen =>
    have hlt : offsetTs = 0 → (s now).tieLineageLength < maxTieChain :=
      fun h0 => not_le.mp fun hle => hlen ⟨h0, hle⟩
    refine ⟨h.update (tieLineage_length_le recvTs prio u hlt) e, fun i hi => ?_, rfl⟩
    dsimp only at hi
    split at hi
    next h0 =>
      rcases List.mem_append.mp hi with hi | hi
      · exact mem_range_lt (h now) hi
      · rw [List.mem_singleton.mp hi]
        exact hlt h0
    next h0 =>
      rw [List.mem_singleton.mp hi]
      decide

/-- Moving the trigger is sound unless it writes behind a signature of maximal
length. -/
theorem triggerGvtHookNow_sound_iff (h : Bounded s) (sigAt now : Nat) :
    Sound s (.triggerGvtHookNow sigAt now) ↔ LineageOk s (.triggerGvtHookNow sigAt now) := by
  show SoundResult (s.triggerGvtHookNowSig sigAt now) ↔
    (s sigAt).tieLineageLength = maxTieChain ∨ (s now).tieLineageLength ≠ maxTieChain
  unfold triggerGvtHookNowSig
  by_cases hlen : maxTieChain ≤ (s sigAt).tieLineageLength
  · rw [if_pos hlen]
    exact iff_of_true rfl (.inl ((h sigAt).antisymm hlen))
  · rw [if_neg hlen, or_iff_right fun he => hlen he.ge, h.ne_iff]
    have hself := twCopyEventSig_self s sigAt now
    constructor
    · rintro ⟨-, hidx, -⟩
      exact hidx (s now).tieLineageLength
        (List.mem_append_right _ (by rw [hself]; exact List.mem_singleton_self _))
    · intro hlt
      refine ⟨(copyEventSig_sound h sigAt now).1.update ?_ sigAt, fun i hi => ?_, rfl⟩
      · rw [hself]
        simp only [TwEventSig.tieLineageLength, List.length_append, List.length_singleton]
        exact hlt
      · rcases List.mem_append.mp hi with hi | hi
        · exact (copyEventSig_sound h sigAt now).2 i hi
        · rw [List.mem_singleton.mp hi, hself]
          exact hlt

/-- The reduction is sound when both of its operands pass its assertions. -/
theorem findMinSig_sound_iff (h : Bounded s) (inSig inoutSig : Nat) :
    Sound s (.findMinSig inSig inoutSig) ↔ LineageOk s (.findMinSig inSig inoutSig) := by
  have hassert : (s.findMinSigTurn inSig inoutSig).asserted = true ↔
      LineageOk s (.findMinSig inSig inoutSig) := by
    show _ ↔ (s inSig).tieLineageLength ≠ maxTieChain ∧ (s inoutSig).tieLineageLength ≠ maxTieChain
    rw [h.ne_iff, h.ne_iff]
    unfold findMinSigTurn
    split <;> simp only [Bool.and_eq_true, decide_eq_true_eq]
  have hrest : Bounded (s.findMinSigTurn inSig inoutSig).memory ∧
      ∀ i ∈ (s.findMinSigTurn inSig inoutSig).indices, i < maxTieChain := by
    have hmin : min (s inSig).tieLineageLength (s inoutSig).tieLineageLength ≤ maxTieChain :=
      (min_le_left _ _).trans (h inSig)
    unfold findMinSigTurn
    split
    · refine ⟨h.update (h inSig) inoutSig, fun i hi => ?_⟩
      rcases List.mem_append.mp hi with hi | hi
      · exact mem_range_lt hmin hi
      · exact mem_range_lt (h inSig) hi
    · exact ⟨h, fun i hi => mem_range_lt hmin hi⟩
  constructor
  · exact fun hs => hassert.mp hs.2.2
  · exact fun hok => ⟨hrest.1, hrest.2, hassert.mpr hok⟩

/-- A call on signatures that fit is sound exactly when it meets `LineageOk`. -/
theorem sound_iff (h : Bounded s) (c : SigCall T) : Sound s c ↔ LineageOk s c := by
  cases c with
  | eventNew e now recvTs offsetTs prio u =>
      exact iff_of_true (eventNew_sound h e now recvTs offsetTs prio u) trivial
  | copyEventSig e sig =>
      obtain ⟨hb, hi⟩ := copyEventSig_sound h e sig
      exact iff_of_true ⟨hb, hi, rfl⟩ trivial
  | triggerGvtHookNow sigAt now => exact triggerGvtHookNow_sound_iff h sigAt now
  | findMinSig inSig inoutSig => exact findMinSig_sound_iff h inSig inoutSig

theorem Bounded.step (h : Bounded s) {c : SigCall T} (hok : LineageOk s c) {s' : SigMemory T}
    (hs : s.step c = .ok s') : Bounded s' := by
  have hsound : SoundResult (s.call c) := (sound_iff h c).mpr hok
  unfold SigMemory.step at hs
  split at hs
  next r hr =>
    rw [hr] at hsound
    split at hs
    · cases hs
      exact hsound.1
    · cases hs
  · cases hs

/-! ## Runs -/

/-- The memories reached by calls that meet `LineageOk`. -/
def LineageRun : SigMemory T → Prop :=
  ReachableVia Fresh (fun s c s' => s.step c = .ok s') LineageOk

theorem bounded_of_run (h : LineageRun s) : Bounded s :=
  ReachableVia.invariant (P := Bounded) (fun _ hs => hs.bounded)
    (fun _ _ _ hb hok hs => hb.step hok hs) h

/-- In every run whose calls meet `LineageOk` the signatures fit, and the next
call is sound exactly when it meets `LineageOk` too. -/
theorem tie_lineage_bounded (h : LineageRun s) (c : SigCall T) :
    Bounded s ∧ (Sound s c ↔ LineageOk s c) :=
  ⟨bounded_of_run h, sound_iff (bounded_of_run h) c⟩

/-- A memory of zeroed signatures, of integer time. -/
def zeroMemory : SigMemory Int := fun _ => zeroSig

theorem zeroMemory_fresh : Fresh zeroMemory := fun _ => Nat.zero_le 1

/-- An event at time 5, then a chain of `n` zero-offset events, each at the place
of its creator. -/
def zeroOffsetChain (n : Nat) : List (SigCall Int) :=
  .eventNew 1 0 5 5 1 7 :: List.replicate n (.eventNew 1 1 5 0 1 7)

/-- The hook is requested at the last event of a chain of six, the request is copied into the
buffer of the reduction, which takes the least of the two, and the hook is requested again. -/
theorem tie_lineage_bounded_chain : ∃ s : SigMemory Int, LineageRun s ∧
    (s 1).tieLineageLength = 6 ∧ (s 3).tieLineageLength = 7 ∧ (s 2).tieLineageLength = 6 ∧
    Bounded s ∧ Sound s (.findMinSig 3 2) ∧ Sound s (.triggerGvtHookNow 3 1) := by
  have hrun : ∃ s : SigMemory Int, LineageRun s ∧
      decide ((s 1).tieLineageLength = 6 ∧ (s 3).tieLineageLength = 7 ∧
        (s 2).tieLineageLength = 6) = true :=
    ReachableVia.exists_of_runList (fun s c => decide (LineageOk s c)) _
      (zeroOffsetChain 5 ++ [.triggerGvtHookNow 3 1, .copyEventSig 2 3, .findMinSig 1 2])
      (fun _ _ hc => of_decide_eq_true hc) (.start zeroMemory_fresh) (by decide +kernel)
  obtain ⟨s, hs, ht⟩ := hrun
  obtain ⟨h₁, h₃, h₂⟩ := of_decide_eq_true ht
  refine ⟨s, hs, h₁, h₃, h₂, (tie_lineage_bounded hs (.findMinSig 3 2)).1, ?_, ?_⟩
  · exact (tie_lineage_bounded hs _).2.mpr ⟨by rw [h₃]; decide, by rw [h₂]; decide⟩
  · exact (tie_lineage_bounded hs _).2.mpr (.inr (by rw [h₁]; decide))

/-- A chain of the maximal length the constructor accepts fails the assertions of
the reduction, and a trigger set at its last event is written past the end of the
array. -/
theorem maximal_chain_unsound :
    ∃ s : SigMemory Int, Reachable Fresh (fun s c s' => s.step c = .ok s') s ∧
      ¬ Sound s (.findMinSig 1 2) ∧ ¬ Sound s (.triggerGvtHookNow 3 1) := by
  have hrun : ∃ s : SigMemory Int, Reachable Fresh (fun s c s' => s.step c = .ok s') s ∧
      decide ((s 1).tieLineageLength = maxTieChain ∧ (s 3).tieLineageLength = 0) = true :=
    Reachable.exists_of_runList _ (zeroOffsetChain 19) (.start zeroMemory_fresh)
      (by decide +kernel)
  obtain ⟨s, hs, ht⟩ := hrun
  obtain ⟨hlen, hzero⟩ := of_decide_eq_true ht
  refine ⟨s, hs, ?_, ?_⟩
  · rintro ⟨-, -, hassert⟩
    unfold findMinSigTurn at hassert
    split at hassert <;> simp [hlen] at hassert
  · show ¬ SoundResult (s.triggerGvtHookNowSig 3 1)
    unfold triggerGvtHookNowSig
    rw [if_neg (by rw [hzero]; decide)]
    rintro ⟨-, hidx, -⟩
    have hself := twCopyEventSig_self s 3 1
    have := hidx (s 1).tieLineageLength
      (List.mem_append_right _ (by rw [hself]; exact List.mem_singleton_self _))
    omega

end SigMemory

end Ross

import Ross.Core.Machine
import Ross.Lib.Transition

/-!
# The PEs of a run

Any number of PEs, each running its own steps in any order.  The messages of a
pair of PEs are delivered in the order they were sent, one at a time and at any
moment the receiver polls; a reduction takes place when every PE has entered it.
-/

namespace Ross

variable {T S M R : Type} [TwStime T]

/-- The PEs of a run, by number. -/
abbrev System (T S M R : Type) := Nat → Pe T S M R

/-- What happens next: a PE takes a step of its own, the next message from a PE
reaches another one, or a reduction takes place. -/
inductive SystemInput (T M : Type)
  | pe (i : Nat) (inp : Input T M)
  | deliver (i src : Nat)
  | reduce (r : Reduction)

/-- The PE whose own step it is. -/
def SystemInput.actor : SystemInput T M → Option Nat
  | .pe i _ => some i
  | .deliver i _ => some i
  | .reduce _ => none

/-- The inputs that do not come from another PE or from outside the program. -/
def Input.isLocal : Input T M → Bool
  | .recv _ _ | .call _ | .outcome _ => false
  | _ => true

/-- `find_min_sig` over the contributions of all PEs. -/
def findMinSig : List (TwEventSig T) → TwEventSig T
  | [] => maxSig
  | sig :: sigs =>
      sigs.foldl (fun inout sig => if twEventSigComparePtr sig inout < 0 then sig else inout) sig

theorem foldl_min (sigs : List (TwEventSig T)) (sig : TwEventSig T) :
    sigs.foldl (fun inout sig => if twEventSigComparePtr sig inout < 0 then sig else inout) sig =
      sigs.foldl min sig := by
  congr 1
  funext a b
  simp only [twEventSigComparePtr_neg]
  split_ifs with h
  · exact (min_eq_right h.le).symm
  · exact (min_eq_left (not_lt.mp h)).symm

theorem foldl_min_le (sigs : List (TwEventSig T)) (sig : TwEventSig T) :
    sigs.foldl min sig ≤ sig ∧ ∀ x ∈ sigs, sigs.foldl min sig ≤ x := by
  induction sigs generalizing sig with
  | nil => exact ⟨le_rfl, fun x hx => absurd hx List.not_mem_nil⟩
  | cons a sigs ih =>
      obtain ⟨hs, hx⟩ := ih (min sig a)
      refine ⟨hs.trans (min_le_left sig a), fun x hmem => ?_⟩
      rcases List.mem_cons.mp hmem with rfl | hmem
      · exact hs.trans (min_le_right sig x)
      · exact hx x hmem

theorem foldl_min_mem (sigs : List (TwEventSig T)) (sig : TwEventSig T) :
    sigs.foldl min sig = sig ∨ sigs.foldl min sig ∈ sigs := by
  induction sigs generalizing sig with
  | nil => exact .inl rfl
  | cons a sigs ih =>
      rcases ih (min sig a) with h | h
      · rcases min_choice sig a with h' | h'
        · exact .inl (h.trans h')
        · exact .inr (List.mem_cons.mpr (.inl (h.trans h')))
      · exact .inr (List.mem_cons_of_mem a h)

/-- The minimum is one of the contributions and not above any of them. -/
theorem findMinSig_spec {sigs : List (TwEventSig T)} (hne : sigs ≠ []) :
    findMinSig sigs ∈ sigs ∧ ∀ x ∈ sigs, findMinSig sigs ≤ x := by
  cases sigs with
  | nil => exact absurd rfl hne
  | cons sig sigs =>
      simp only [findMinSig, foldl_min]
      obtain ⟨hs, hx⟩ := foldl_min_le sigs sig
      refine ⟨List.mem_cons.mpr (foldl_min_mem sigs sig), fun x hmem => ?_⟩
      rcases List.mem_cons.mp hmem with rfl | hmem
      · exact hs
      · exact hx x hmem

namespace System

variable (m : SimModel T S M R)

/-- All PEs before their first step. -/
def start : System T S M R := fun i => Pe.start m i (Pe.program m i)

/-- The messages PE `src` sent to PE `i`, in order. -/
def sentTo (s : System T S M R) (src i : Nat) : List (WireMsg T M) :=
  ((s src).wire.filter fun x => x.1 = i).map (·.2)

/-- The messages from PE `src` that reached PE `i`. -/
def arrivedFrom (s : System T S M R) (src i : Nat) : List (WireMsg T M) :=
  ((s i).arrived.filter fun x => x.1 = src).map (·.2.1)

/-- The messages from PE `src` to PE `i` that have not arrived yet. -/
def inFlight (s : System T S M R) (src i : Nat) : List (WireMsg T M) :=
  (s.sentTo src i).drop (s.arrivedFrom src i).length

/-- PE `p` waits for the reduction `r`. -/
def waitsFor (p : Pe T S M R) (r : Reduction) : Bool :=
  decide (p.net = .off) && p.rollback.isNone &&
    match p.phase with
    | .reduce r' => decide (r' = r)
    | _ => false

/-- The result of a reduction over all PEs. -/
def outcome (s : System T S M R) : Reduction → Outcome T
  | .white => .total ((List.range m.npe).map fun i => (s i).localWhite).sum
  | .lvt => .gvt (findMinSig ((List.range m.npe).map fun i => (s i).lvtSig m))
  | .hookAll => .flag ((List.range m.npe).all fun i => (s i).pastHookThreshold)
  | .hookAny => .flag ((List.range m.npe).any fun i => (s i).pastHookThreshold)
  | .cleanupCancel => .flag ((List.range m.npe).any fun i => !(s i).cancelQ.isEmpty)
  | .cleanupEvent => .flag ((List.range m.npe).any fun i => !((s i).queue .eventQ).isEmpty)

/-- The assertions of `find_min_sig`, which runs when there are contributions to
combine. -/
def minSigFails (s : System T S M R) : Bool :=
  decide (1 < m.npe) &&
    (List.range m.npe).any fun i => decide (maxTieChain ≤ ((s i).lvtSig m).tieLineageLength)

/-- A step of the system. -/
def step (s : System T S M R) : SystemInput T M → Except TwError (System T S M R)
  | .pe i inp =>
      if i < m.npe ∧ inp.isLocal then
        match (s i).step m inp with
        | .ok p => .ok (Function.update s i p)
        | .error e => .error e
      else .error .notEnabled
  | .deliver i src =>
      match (s.inFlight src i).head? with
      | none => .error .notEnabled
      | some w =>
          if i < m.npe ∧ src < m.npe then
            match (s i).step m (.recv src w) with
            | .ok p => .ok (Function.update s i p)
            | .error e => .error e
          else .error .notEnabled
  | .reduce r =>
      if (List.range m.npe).all fun i => waitsFor (s i) r then
        if r = .lvt ∧ s.minSigFails m then .error .assertFailed
        else .ok fun i => if i < m.npe then (s i).reduceDone r (s.outcome m r) else s i
      else .error .notEnabled

/-- The states of all runs. -/
def Reached (m : SimModel T S M R) : System T S M R → Prop :=
  Transition.Reachable (· = start m) fun a i b => a.step m i = .ok b

/-! ## What a step can do -/

variable {m} {s s' : System T S M R}

omit [TwStime T] in
theorem waitsFor_iff {p : Pe T S M R} {r : Reduction} :
    waitsFor p r = true ↔ p.At (.reduce r) := by
  unfold waitsFor Pe.At
  rw [Bool.and_eq_true, Bool.and_eq_true, decide_eq_true_eq, Option.isNone_iff_eq_none, and_assoc]
  refine and_congr_right fun _ => and_congr_right fun _ => ?_
  constructor
  · intro h
    split at h
    next hp =>
      rw [hp, of_decide_eq_true h]
    · cases h
  · intro h
    rw [h]
    exact decide_eq_true rfl

theorem pe_ok {i : Nat} {inp : Input T M} (h : s.step m (.pe i inp) = .ok s') :
    i < m.npe ∧ inp.isLocal = true ∧ ∃ p, (s i).step m inp = .ok p ∧
      s' = Function.update s i p := by
  unfold step at h
  dsimp only at h
  split at h
  next hi =>
    split at h
    next p hp =>
      cases h
      exact ⟨hi.1, hi.2, p, hp, rfl⟩
    · cases h
  · cases h

theorem deliver_ok {i src : Nat} (h : s.step m (.deliver i src) = .ok s') :
    i < m.npe ∧ src < m.npe ∧ ∃ w p, (s.inFlight src i).head? = some w ∧
      (s i).step m (.recv src w) = .ok p ∧ s' = Function.update s i p := by
  unfold step at h
  dsimp only at h
  split at h
  · cases h
  next w hw =>
    split at h
    next hi =>
      split at h
      next p hp =>
        cases h
        exact ⟨hi.1, hi.2, w, p, hw, hp, rfl⟩
      · cases h
    · cases h

theorem reduce_ok {r : Reduction} (h : s.step m (.reduce r) = .ok s') :
    (∀ i < m.npe, (s i).At (.reduce r)) ∧
      s' = fun i => if i < m.npe then (s i).reduceDone r (s.outcome m r) else s i := by
  unfold step at h
  dsimp only at h
  split at h
  next hall =>
    split at h
    · cases h
    · cases h
      refine ⟨fun i hi => ?_, rfl⟩
      exact waitsFor_iff.mp (List.all_eq_true.mp hall i (List.mem_range.mpr hi))
  · cases h

/-- What a step of the system is for one PE. -/
inductive StepOf (m : SimModel T S M R) (s : System T S M R) (l : SystemInput T M)
    (s' : System T S M R) (i : Nat) : Prop
  /-- A step of its own program, or the arrival of a message. -/
  | own {x : Input T M} : l.actor = some i → (∀ c, x ≠ .call c) →
      (∀ src w, x = .recv src w → (s.inFlight src i).head? = some w) →
      (s i).step m x = .ok (s' i) → StepOf m s l s' i
  /-- A reduction that it takes part in. -/
  | reduced {r : Reduction} : l.actor ≠ some i → (s i).At (.reduce r) →
      s' i = (s i).reduceDone r (s.outcome m r) → StepOf m s l s' i
  /-- Nothing. -/
  | other : l.actor ≠ some i → s' i = s i → StepOf m s l s' i

theorem step_of {l : SystemInput T M} (h : s.step m l = .ok s') (i : Nat) : StepOf m s l s' i := by
  -- A step of PE `j` alone: the others keep their states.
  have single : ∀ {j : Nat} {x : Input T M} {p : Pe T S M R}, l.actor = some j →
      (∀ c, x ≠ .call c) →
      (∀ src w, x = .recv src w → (s.inFlight src j).head? = some w) →
      (s j).step m x = .ok p → s' = Function.update s j p → StepOf m s l s' i := by
    intro j x p hl hc hw hp hs
    by_cases hi : i = j
    · subst hi
      refine .own hl hc hw ?_
      rw [hs, Function.update_self]
      exact hp
    · refine .other (fun he => hi (Option.some.inj (he.symm.trans hl))) ?_
      rw [hs, Function.update_of_ne hi]
  cases l with
  | pe j x =>
      obtain ⟨-, hlocal, p, hp, hs⟩ := pe_ok h
      refine single rfl (fun c hc => ?_) (fun src w hw => ?_) hp hs
      · rw [hc] at hlocal
        cases hlocal
      · rw [hw] at hlocal
        cases hlocal
  | deliver j src =>
      obtain ⟨-, -, w, p, hw, hp, hs⟩ := deliver_ok h
      refine single rfl (x := .recv src w) nofun (fun src' w' heq => ?_) hp hs
      cases heq
      exact hw
  | reduce r =>
      obtain ⟨hat, hs⟩ := reduce_ok h
      by_cases hi : i < m.npe
      · exact .reduced nofun (hat i hi) (by rw [hs]; exact if_pos hi)
      · exact .other nofun (by rw [hs]; exact if_neg hi)

end System

end Ross

import Ross.Core.System
import Ross.Lib.ReduceTree
import Ross.Proofs.SignatureOrders

/-!
# The reduction of the signatures

`find_min_sig` leaves at its destination a signature that is as small as the smaller one of its
operands, with whatever was behind the lineage.  So a reduction may combine the signatures of the
processors in every order and every shape, as a commutative operation of MPI.
-/

namespace Ross

namespace SigBuffer

variable {T : Type}

/-! ## One turn -/

theorem foldl_update (f g : Nat → T) (n j : Nat) :
    (List.range n).foldl (fun f j => Function.update f j (g j)) f j =
      if j < n then g j else f j := by
  induction n with
  | zero => rfl
  | succ n ih =>
      rw [List.range_succ, List.foldl_append, List.foldl_cons, List.foldl_nil]
      by_cases hj : j = n
      · rw [hj, Function.update_self, if_pos (Nat.lt_succ_self n)]
      · rw [Function.update_of_ne hj, ih]
        by_cases hlt : j < n
        · rw [if_pos hlt, if_pos (by omega)]
        · rw [if_neg hlt, if_neg (by omega)]

/-- A lineage that `find_min_sig` accepts. -/
def InChain (sig : SigBuffer T) : Prop := sig.tieLineageLength < maxTieChain

theorem InChain.of_sig_eq {a b : SigBuffer T} (h : a.sig = b.sig) (hb : b.InChain) : a.InChain := by
  unfold InChain
  rw [(sig_eq_iff.mp h).2.2.1]
  exact hb

/-- The destination gets the signature; the elements behind the lineage are its own. -/
theorem overwrite_sig (inSig inoutSig : SigBuffer T) :
    (inoutSig.overwrite inSig).sig = inSig.sig := by
  apply sig_eq_iff.mpr
  refine ⟨rfl, rfl, rfl, fun i hi => ?_⟩
  show copyTiebreakers inSig inoutSig i = _
  unfold copyTiebreakers
  rw [foldl_update]
  exact if_pos hi

variable [LinearOrder T]

theorem findMinSigAt_ok {inSig inoutSig : SigBuffer T} (hin : inSig.InChain)
    (hinout : inoutSig.InChain) :
    ∃ c, inSig.findMinSigAt inoutSig = .ok c ∧ c.sig = min inSig.sig inoutSig.sig := by
  have hassert : ¬ ¬ inSig.tieLineageLength < maxTieChain := not_not.mpr hin
  have hassert' : ¬ ¬ inoutSig.tieLineageLength < maxTieChain := not_not.mpr hinout
  unfold findMinSigAt
  rw [if_neg hassert, if_neg hassert']
  by_cases hlt : inSig.comparePtr inoutSig < 0
  · rw [if_pos hlt]
    refine ⟨_, rfl, ?_⟩
    rw [overwrite_sig, min_eq_left (comparePtr_neg.mp hlt).le]
  · rw [if_neg hlt]
    rw [comparePtr_neg, not_lt] at hlt
    exact ⟨_, rfl, (min_eq_right hlt).symm⟩

/-! ## The loop -/

/-- The loop takes the smaller signature at each of its elements, and leaves the others. -/
theorem findMinSigLoop_ok {inSigs inoutSigs : Nat → SigBuffer T} {turns i : Nat}
    (hin : ∀ j, i ≤ j → j < i + turns → (inSigs j).InChain)
    (hinout : ∀ j, i ≤ j → j < i + turns → (inoutSigs j).InChain) :
    ∃ r, findMinSigLoop inSigs turns i inoutSigs = .ok r ∧
      (∀ j, i ≤ j → j < i + turns → (r j).sig = min (inSigs j).sig (inoutSigs j).sig) ∧
      ∀ j < i, r j = inoutSigs j := by
  induction turns generalizing i inoutSigs with
  | zero => exact ⟨inoutSigs, rfl, fun j hle hlt => by omega, fun j _ => rfl⟩
  | succ turns ih =>
      obtain ⟨c, hc, hmin⟩ := findMinSigAt_ok (hin i le_rfl (by omega)) (hinout i le_rfl (by omega))
      have hother : ∀ j, j ≠ i → Function.update inoutSigs i c j = inoutSigs j :=
        fun j hj => Function.update_of_ne hj _ _
      have hnext : ∀ j, i + 1 ≤ j → j < i + 1 + turns →
          (Function.update inoutSigs i c j).InChain := by
        intro j hle hlt
        rw [hother j (by omega)]
        exact hinout j (by omega) (by omega)
      obtain ⟨r, hr, hmins, hsame⟩ :=
        ih (fun j hle hlt => hin j (by omega) (by omega)) hnext
      refine ⟨r, ?_, fun j hle hlt => ?_, fun j hj => ?_⟩
      · unfold findMinSigLoop
        rw [hc]
        exact hr
      · by_cases hji : j = i
        · rw [hji, hsame i (Nat.lt_succ_self i), Function.update_self, hmin]
        · rw [hmins j (by omega) (by omega), hother j hji]
      · rw [hsame j (by omega), hother j (by omega)]

/-- `find_min_sig` on operands of `len` signatures. -/
theorem findMinSig_ok {len : Nat} {inSigs inoutSigs : Nat → SigBuffer T}
    (hin : ∀ j < len, (inSigs j).InChain) (hinout : ∀ j < len, (inoutSigs j).InChain) :
    ∃ r, findMinSig len inSigs inoutSigs = .ok r ∧
      ∀ j < len, (r j).sig = min (inSigs j).sig (inoutSigs j).sig := by
  have hin' : ∀ j, 0 ≤ j → j < 0 + len → (inSigs j).InChain :=
    fun j _ hlt => hin j (by omega)
  have hinout' : ∀ j, 0 ≤ j → j < 0 + len → (inoutSigs j).InChain :=
    fun j _ hlt => hinout j (by omega)
  obtain ⟨r, hr, hmins, -⟩ := findMinSigLoop_ok hin' hinout'
  exact ⟨r, hr, fun j hj => hmins j (Nat.zero_le j) (by omega)⟩

/-! ## Reductions -/

/-- The signatures `r` are least ones of the operands `l`, and no longer than these. -/
structure LeastOf (len : Nat) (l : List (Nat → SigBuffer T)) (r : Nat → SigBuffer T) : Prop where
  mem : ∀ i < len, ∃ b ∈ l, (r i).sig = (b i).sig
  le : ∀ i < len, ∀ b ∈ l, (r i).sig ≤ (b i).sig
  inChain : ∀ i < len, (r i).InChain

namespace LeastOf

variable {len : Nat} {l l' : List (Nat → SigBuffer T)} {a b r r' : Nat → SigBuffer T}

theorem singleton (h : ∀ i < len, (a i).InChain) : LeastOf len [a] a where
  mem _ _ := ⟨a, List.mem_singleton_self a, rfl⟩
  le i _ b hb := by rw [List.mem_singleton.mp hb]
  inChain := h

/-- Two results are combined. -/
theorem append (ha : LeastOf len l a) (hb : LeastOf len l' b) :
    ∃ c, findMinSig len a b = .ok c ∧ LeastOf len (l ++ l') c := by
  obtain ⟨c, hc, hmin⟩ := findMinSig_ok ha.inChain hb.inChain
  refine ⟨c, hc, fun i hi => ?_, fun i hi x hx => ?_, fun i hi => ?_⟩
  · rcases min_choice (a i).sig (b i).sig with hmin' | hmin'
    · obtain ⟨x, hx, heq⟩ := ha.mem i hi
      exact ⟨x, List.mem_append_left _ hx, by rw [hmin i hi, hmin', heq]⟩
    · obtain ⟨x, hx, heq⟩ := hb.mem i hi
      exact ⟨x, List.mem_append_right _ hx, by rw [hmin i hi, hmin', heq]⟩
  · rw [hmin i hi]
    rcases List.mem_append.mp hx with hl | hl'
    · exact (min_le_left _ _).trans (ha.le i hi x hl)
    · exact (min_le_right _ _).trans (hb.le i hi x hl')
  · rcases min_choice (a i).sig (b i).sig with hmin' | hmin'
    · exact .of_sig_eq ((hmin i hi).trans hmin') (ha.inChain i hi)
    · exact .of_sig_eq ((hmin i hi).trans hmin') (hb.inChain i hi)

/-- The order of the operands does not matter. -/
theorem perm (h : LeastOf len l r) (hl : l.Perm l') : LeastOf len l' r where
  mem i hi := by
    obtain ⟨x, hx, heq⟩ := h.mem i hi
    exact ⟨x, hl.mem_iff.mp hx, heq⟩
  le i hi x hx := h.le i hi x (hl.mem_iff.mpr hx)
  inChain := h.inChain

theorem sig_eq (h : LeastOf len l r) (h' : LeastOf len l r') {i : Nat} (hi : i < len) :
    (r i).sig = (r' i).sig := by
  obtain ⟨x, hx, heq⟩ := h.mem i hi
  obtain ⟨y, hy, heq'⟩ := h'.mem i hi
  apply le_antisymm
  · rw [heq']
    exact h.le i hi y hy
  · rw [heq]
    exact h'.le i hi x hx

end LeastOf

/-- Every reduction of the operands, in every order, succeeds with least signatures. -/
theorem reduce_leastOf {len : Nat} {family : List (Nat → SigBuffer T)}
    (hchain : ∀ b ∈ family, ∀ i < len, (b i).InChain) {tree : ReduceTree (Nat → SigBuffer T)}
    (hperm : tree.leaves.Perm family) :
    ∃ r, tree.reduce (findMinSig len) = .ok r ∧ LeastOf len family r := by
  obtain ⟨r, hr, hleast⟩ := ReduceTree.reduce_ok (P := LeastOf len)
    (Q := fun b => ∀ i < len, (b i).InChain) (fun a ha => .singleton ha)
    (fun l r a b ha hb => ha.append hb) tree
    fun b hb => hchain b (hperm.mem_iff.mp hb)
  exact ⟨r, hr, hleast.perm hperm⟩

/-- The reduction is order independent: over every permutation of the operands, every shape of a
reduction with `find_min_sig` ends with signatures that compare equal to the minimum of the
operands, and so to each other. -/
theorem findMinSig_order_independent (len : Nat) (family : List (Nat → SigBuffer T))
    (hchain : ∀ b ∈ family, ∀ i < len, (b i).tieLineageLength < maxTieChain)
    (tree : ReduceTree (Nat → SigBuffer T)) (hperm : tree.leaves.Perm family) :
    ∃ r, tree.reduce (findMinSig len) = .ok r ∧
      (∀ i < len, ∃ least ∈ family, (∀ b ∈ family, (least i).comparePtr (b i) ≤ 0) ∧
        (r i).comparePtr (least i) = 0) ∧
      ∀ other : ReduceTree (Nat → SigBuffer T), other.leaves.Perm family →
        ∃ r', other.reduce (findMinSig len) = .ok r' ∧
          ∀ i < len, (r i).comparePtr (r' i) = 0 := by
  obtain ⟨r, hr, hleast⟩ := reduce_leastOf hchain hperm
  refine ⟨r, hr, fun i hi => ?_, fun other hother => ?_⟩
  · obtain ⟨least, hmem, heq⟩ := hleast.mem i hi
    refine ⟨least, hmem, fun b hb => ?_, comparePtr_zero.mpr heq⟩
    rw [comparePtr_nonpos, ← heq]
    exact hleast.le i hi b hb
  · obtain ⟨r', hr', hleast'⟩ := reduce_leastOf hchain hother
    exact ⟨r', hr', fun i hi => comparePtr_zero.mpr (hleast.sig_eq hleast' hi)⟩

/-- The signature of time `t` with one tiebreaker, and `stale` behind it. -/
def oneTiebreaker (t stale : Int) : SigBuffer Int := ⟨t, 0, 1, fun j => if j = 0 then 4 else stale⟩

/-- Two equal signatures and a later one, each with its own stale tiebreakers. -/
def staleOperands : List (Nat → SigBuffer Int) :=
  [(3, 8), (2, 9), (2, 7)].map fun x _ => oneTiebreaker x.1 x.2

/-- A reduction that takes the last operand first. -/
def staleTree : ReduceTree (Nat → SigBuffer Int) :=
  .node (.leaf fun _ => oneTiebreaker 2 7)
    (.node (.leaf fun _ => oneTiebreaker 3 8) (.leaf fun _ => oneTiebreaker 2 9))

theorem findMinSig_order_independent_stale :
    ∃ r, staleTree.reduce (findMinSig 1) = .ok r ∧
      ∃ least ∈ staleOperands, (∀ b ∈ staleOperands, (least 0).comparePtr (b 0) ≤ 0) ∧
        (r 0).comparePtr (least 0) = 0 := by
  have hchain : ∀ b ∈ staleOperands, ∀ i < 1, (b i).tieLineageLength < maxTieChain := by
    intro b hb i _
    obtain ⟨x, -, rfl⟩ := List.mem_map.mp hb
    exact (by decide : 1 < 20)
  have hperm : staleTree.leaves.Perm staleOperands := List.perm_append_comm
  obtain ⟨r, hr, hleast, -⟩ :=
    findMinSig_order_independent 1 staleOperands hchain staleTree hperm
  exact ⟨r, hr, hleast 0 Nat.one_pos⟩

end SigBuffer

/-! ## The reduction of the system -/

/-- What the processors agree on is what every reduction of their signatures gives. -/
theorem findMinSig_eq_reduce {T : Type} [TwStime T] {family : List (Nat → SigBuffer T)}
    (hchain : ∀ b ∈ family, ∀ i < 1, (b i).InChain) {tree : ReduceTree (Nat → SigBuffer T)}
    (hperm : tree.leaves.Perm family) :
    ∃ r, tree.reduce (SigBuffer.findMinSig 1) = .ok r ∧
      (r 0).sig = findMinSig (family.map fun b => (b 0).sig) := by
  obtain ⟨r, hr, hleast⟩ := SigBuffer.reduce_leastOf hchain hperm
  obtain ⟨b, hb, heq⟩ := hleast.mem 0 Nat.one_pos
  have hmem : (b 0).sig ∈ family.map fun b => (b 0).sig := List.mem_map.mpr ⟨b, hb, rfl⟩
  obtain ⟨hmin, hmin'⟩ := findMinSig_spec (List.ne_nil_of_mem hmem)
  refine ⟨r, hr, le_antisymm ?_ ?_⟩
  · obtain ⟨x, hx, hsig⟩ := List.mem_map.mp hmin
    rw [← hsig]
    exact hleast.le 0 Nat.one_pos x hx
  · rw [heq]
    exact hmin' _ hmem

end Ross

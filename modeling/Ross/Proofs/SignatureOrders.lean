import Mathlib.Order.RelClasses
import Ross.Core.SigBuffer

/-!
# The orders of signatures and events

`tw_event_sig_compare_ptr` on signatures in memory is the comparison of their significant parts, and
`tw_pq_compare_less_than_rand` decides by this comparison first.  So the second function is a
strict total order that refines the first, for lineages of every length.
-/

namespace Ross

variable {T : Type}

/-! ## Lineages -/

namespace SigBuffer

theorem length_lineage (a : SigBuffer T) : a.lineage.length = a.tieLineageLength := by
  unfold lineage
  rw [List.length_map, List.length_range]

/-- The rest of the lineage from `i` on. -/
theorem drop_lineage (a : SigBuffer T) {i : Nat} (h : i < a.tieLineageLength) :
    a.lineage.drop i = a.eventTiebreaker i :: a.lineage.drop (i + 1) := by
  have hlen : i < a.lineage.length := by rw [length_lineage]; exact h
  have hget : a.lineage[i] = a.eventTiebreaker i := by simp [lineage]
  rw [List.drop_eq_getElem_cons hlen, hget]

theorem drop_lineage_nil (a : SigBuffer T) {i : Nat} (h : a.tieLineageLength ≤ i) :
    a.lineage.drop i = [] := List.drop_of_length_le (by rw [length_lineage]; exact h)

/-- Equal significant parts. -/
theorem sig_eq_iff {a b : SigBuffer T} :
    a.sig = b.sig ↔ a.recvTs = b.recvTs ∧ a.priority = b.priority ∧
      a.tieLineageLength = b.tieLineageLength ∧
      ∀ i < a.tieLineageLength, a.eventTiebreaker i = b.eventTiebreaker i := by
  have hlineage : a.lineage = b.lineage ↔ a.tieLineageLength = b.tieLineageLength ∧
      ∀ i < a.tieLineageLength, a.eventTiebreaker i = b.eventTiebreaker i := by
    constructor
    · intro h
      have hlen := congrArg List.length h
      rw [length_lineage, length_lineage] at hlen
      refine ⟨hlen, fun i hi => ?_⟩
      have hdrop := congrArg (List.drop i) h
      rw [a.drop_lineage hi, b.drop_lineage (hlen ▸ hi)] at hdrop
      exact (List.cons.inj hdrop).1
    · intro ⟨hlen, htb⟩
      unfold lineage
      rw [← hlen]
      exact List.map_congr_left fun i hi => htb i (List.mem_range.mp hi)
  rw [← hlineage]
  unfold sig
  rw [TwEventSig.mk.injEq]

end SigBuffer

variable [LinearOrder T]

/-! ## The decision between two events -/

/-- A decision by the comparison `c`, and by `tie` when it is 0. -/
def decideBy (c : Int) (tie : Except PqError Bool) : Except PqError Bool :=
  if c < 0 then .ok true else if 0 < c then .ok false else tie

/-- The decision by the ids `i` and `j` of the events, and by their senders `p` and `q`. -/
def decideById (i j p q : Nat) : Except PqError Bool :=
  if i < j then .ok true
  else if j < i then .ok false
  else if p < q then .ok true
  else if q < p then .ok false
  else .error .identicalEvents

@[simp] theorem decideBy_neg (tie : Except PqError Bool) : decideBy (-1) tie = .ok true := rfl

@[simp] theorem decideBy_zero (tie : Except PqError Bool) : decideBy 0 tie = tie := rfl

@[simp] theorem decideBy_one (tie : Except PqError Bool) : decideBy 1 tie = .ok false := rfl

theorem decideById_self (i p : Nat) : decideById i i p p = .error .identicalEvents := by
  simp [decideById]

/-- Different ids, or different senders, are decided by their order. -/
theorem decideById_ok {i j p q : Nat} (h : ¬ (i = j ∧ p = q)) :
    decideById i j p q = .ok (decide (i < j ∨ i = j ∧ p < q)) := by
  unfold decideById
  split_ifs with hij hji hpq hqp
  · rw [decide_eq_true (.inl hij)]
  · rw [decide_eq_false (by omega)]
  · rw [decide_eq_true (.inr ⟨by omega, hpq⟩)]
  · rw [decide_eq_false (by omega)]
  · exact absurd ⟨by omega, by omega⟩ h

/-- The key whose order the decisions follow. -/
def decisionKey (a : TwEventSig T) (i p : Nat) : TwEventSig T ×ₗ Nat ×ₗ Nat :=
  toLex (a, toLex (i, p))

theorem decisionKey_lt {a b : TwEventSig T} {i j p q : Nat} :
    decisionKey a i p < decisionKey b j q ↔ a < b ∨ a = b ∧ (i < j ∨ i = j ∧ p < q) := by
  simp only [decisionKey, Prod.Lex.toLex_lt_toLex]

/-- Different keys are decided without an error. -/
theorem decideBy_ok {a b : TwEventSig T} {i j p q : Nat}
    (h : decisionKey a i p ≠ decisionKey b j q) :
    decideBy (twEventSigComparePtr a b) (decideById i j p q) =
      .ok (decide (decisionKey a i p < decisionKey b j q)) := by
  rcases twEventSigComparePtr_cases a b with ⟨hlt, hc⟩ | ⟨heq, hc⟩ | ⟨hgt, hc⟩
  · rw [hc, decideBy_neg, decide_eq_true (decisionKey_lt.mpr (.inl hlt))]
  · have hids : ¬ (i = j ∧ p = q) := by
      intro ⟨hij, hpq⟩
      exact h (by rw [heq, hij, hpq])
    have hiff : decisionKey a i p < decisionKey b j q ↔ i < j ∨ i = j ∧ p < q := by
      rw [decisionKey_lt]
      simp only [heq, lt_irrefl, true_and, false_or]
    rw [hc, decideBy_zero, decideById_ok hids]
    simp only [hiff]
  · have hnot : ¬ decisionKey a i p < decisionKey b j q := by
      intro hlt
      rcases decisionKey_lt.mp hlt with hab | ⟨hab, -⟩
      · exact hgt.not_gt hab
      · exact hgt.ne' hab
    rw [hc, decideBy_one, decide_eq_false hnot]

namespace SigBuffer

/-! ## `tw_event_sig_compare_ptr` -/

/-- Behind the common part of two lineages, their lengths are compared. -/
theorem compareLineage_min (a b : SigBuffer T) :
    compareLineage (a.lineage.drop (min a.tieLineageLength b.tieLineageLength))
      (b.lineage.drop (min a.tieLineageLength b.tieLineageLength)) = a.compareLengths b := by
  unfold compareLengths
  rcases Nat.lt_trichotomy a.tieLineageLength b.tieLineageLength with hlt | heq | hgt
  · rw [Nat.min_eq_left hlt.le, a.drop_lineage_nil le_rfl, b.drop_lineage hlt, if_neg hlt.ne,
      if_neg hlt.not_gt]
    rfl
  · rw [heq, Nat.min_self, a.drop_lineage_nil heq.le, b.drop_lineage_nil le_rfl, if_pos rfl]
    rfl
  · rw [Nat.min_eq_right hgt.le, a.drop_lineage hgt, b.drop_lineage_nil le_rfl, if_neg hgt.ne',
      if_pos hgt]
    rfl

/-- The loop compares what is left of the lineages. -/
theorem compareTiebreakers_eq (a b : SigBuffer T) {turns i : Nat}
    (h : i + turns = min a.tieLineageLength b.tieLineageLength) :
    a.compareTiebreakers b turns i =
      compareLineage (a.lineage.drop i) (b.lineage.drop i) := by
  induction turns generalizing i with
  | zero =>
      rw [show i = min a.tieLineageLength b.tieLineageLength by omega, compareLineage_min]
      rfl
  | succ turns ih =>
      rw [a.drop_lineage (by omega), b.drop_lineage (by omega)]
      unfold compareTiebreakers compareLineage
      rw [ih (by omega)]

/-- Only the significant parts are compared. -/
theorem comparePtr_eq (a b : SigBuffer T) :
    a.comparePtr b = twEventSigComparePtr a.sig b.sig := by
  unfold comparePtr
  simp only [a.compareTiebreakers_eq b (Nat.zero_add _), List.drop_zero]
  rfl

theorem comparePtr_neg {a b : SigBuffer T} : a.comparePtr b < 0 ↔ a.sig < b.sig := by
  rw [comparePtr_eq, twEventSigComparePtr_neg]

theorem comparePtr_nonpos {a b : SigBuffer T} : a.comparePtr b ≤ 0 ↔ a.sig ≤ b.sig := by
  rw [comparePtr_eq, twEventSigComparePtr_nonpos]

theorem comparePtr_of_lt {a b : SigBuffer T} (h : a.sig < b.sig) : a.comparePtr b = -1 := by
  rw [comparePtr_eq]
  rcases twEventSigComparePtr_cases a.sig b.sig with ⟨-, hc⟩ | ⟨heq, -⟩ | ⟨hgt, -⟩
  · exact hc
  · exact absurd heq h.ne
  · exact absurd hgt h.not_gt

theorem comparePtr_of_eq {a b : SigBuffer T} (h : a.sig = b.sig) : a.comparePtr b = 0 := by
  rw [comparePtr_eq, h]
  rcases twEventSigComparePtr_cases b.sig b.sig with ⟨hlt, -⟩ | ⟨-, hc⟩ | ⟨hgt, -⟩
  · exact absurd hlt (lt_irrefl _)
  · exact hc
  · exact absurd hgt (lt_irrefl _)

theorem comparePtr_of_gt {a b : SigBuffer T} (h : b.sig < a.sig) : a.comparePtr b = 1 := by
  rw [comparePtr_eq]
  rcases twEventSigComparePtr_cases a.sig b.sig with ⟨hlt, -⟩ | ⟨heq, -⟩ | ⟨-, hc⟩
  · exact absurd hlt h.not_gt
  · exact absurd heq h.ne'
  · exact hc

theorem comparePtr_swap (a b : SigBuffer T) : a.comparePtr b = -b.comparePtr a := by
  rcases lt_trichotomy a.sig b.sig with hlt | heq | hgt
  · rw [comparePtr_of_lt hlt, comparePtr_of_gt hlt]
  · rw [comparePtr_of_eq heq, comparePtr_of_eq heq.symm]
    rfl
  · rw [comparePtr_of_gt hgt, comparePtr_of_lt hgt]
    rfl

theorem comparePtr_zero {a b : SigBuffer T} : a.comparePtr b = 0 ↔ a.sig = b.sig := by
  constructor
  · intro h
    have hba := comparePtr_swap b a
    rw [h] at hba
    apply le_antisymm
    · exact comparePtr_nonpos.mp h.le
    · exact comparePtr_nonpos.mp hba.le
  · exact comparePtr_of_eq

end SigBuffer

/-! ## `tw_pq_compare_less_than_rand` -/

namespace PqEvent

/-- The key of an event. -/
def key (e : PqEvent T) : TwEventSig T ×ₗ Nat ×ₗ Nat :=
  decisionKey e.sig.sig e.eventId e.sendPe

omit [LinearOrder T] in
/-- Behind the common part, the lengths decide, and then the ids. -/
theorem lessThanTie_eq (n e : PqEvent T) :
    n.lessThanTie e = decideBy (n.sig.compareLengths e.sig)
      (decideById n.eventId e.eventId n.sendPe e.sendPe) := by
  unfold lessThanTie SigBuffer.compareLengths
  rcases Nat.lt_trichotomy n.sig.tieLineageLength e.sig.tieLineageLength with hlt | heq | hgt
  · rw [if_neg hlt.ne', if_pos hlt, if_neg hlt.ne, if_neg hlt.not_gt]
    rfl
  · rw [if_pos heq.symm, if_pos heq]
    rfl
  · rw [if_neg hgt.ne, if_neg hgt.not_gt, if_neg hgt.ne', if_pos hgt]
    rfl

/-- The loop decides by what is left of the lineages. -/
theorem lessThanTiebreakers_eq (n e : PqEvent T) {turns i : Nat}
    (h : i + turns = min n.sig.tieLineageLength e.sig.tieLineageLength) :
    n.lessThanTiebreakers e turns i =
      decideBy (compareLineage (n.sig.lineage.drop i) (e.sig.lineage.drop i))
        (decideById n.eventId e.eventId n.sendPe e.sendPe) := by
  induction turns generalizing i with
  | zero =>
      rw [show i = min n.sig.tieLineageLength e.sig.tieLineageLength by omega,
        SigBuffer.compareLineage_min]
      exact lessThanTie_eq n e
  | succ turns ih =>
      rw [n.sig.drop_lineage (by omega), e.sig.drop_lineage (by omega)]
      unfold lessThanTiebreakers compareLineage
      rw [ih (by omega)]
      -- The function tests the opposite comparison first.
      rcases lt_trichotomy (n.sig.eventTiebreaker i) (e.sig.eventTiebreaker i) with
        hlt | heq | hgt
      · rw [if_neg hlt.not_gt, if_pos hlt, if_pos hlt, decideBy_neg]
      · rw [heq, if_neg (lt_irrefl _), if_neg (lt_irrefl _), if_neg (lt_irrefl _),
          if_neg (lt_irrefl _)]
      · rw [if_pos hgt, if_neg hgt.not_gt, if_pos hgt, decideBy_one]

/-- The signatures decide, and then the ids. -/
theorem lessThanRand_eq {n e : PqEvent T} (hn : n.recvTs = n.sig.recvTs)
    (he : e.recvTs = e.sig.recvTs) :
    n.lessThanRand e = decideBy (n.sig.comparePtr e.sig)
      (decideById n.eventId e.eventId n.sendPe e.sendPe) := by
  unfold lessThanRand SigBuffer.comparePtr
  rw [Nat.min_comm, n.lessThanTiebreakers_eq e (Nat.zero_add _),
    n.sig.compareTiebreakers_eq e.sig (Nat.zero_add _), hn, he]
  rcases twStimeCmp_cases n.sig.recvTs e.sig.recvTs with ⟨-, ht⟩ | ⟨-, ht⟩ | ⟨-, ht⟩
  · rw [ht]
    rfl
  · rw [ht]
    rcases twStimeCmp_cases n.sig.priority e.sig.priority with ⟨-, hp⟩ | ⟨-, hp⟩ | ⟨-, hp⟩
    all_goals rw [hp]
    all_goals rfl
  · rw [ht]
    rfl

/-- Events with different keys are compared without an error. -/
theorem lessThanRand_ok {n e : PqEvent T} (hn : n.recvTs = n.sig.recvTs)
    (he : e.recvTs = e.sig.recvTs) (h : n.key ≠ e.key) :
    n.lessThanRand e = .ok (decide (n.key < e.key)) := by
  rw [lessThanRand_eq hn he, SigBuffer.comparePtr_eq]
  exact decideBy_ok h

/-- An event is not compared with itself. -/
theorem lessThanRand_self {e : PqEvent T} (he : e.recvTs = e.sig.recvTs) :
    e.lessThanRand e = .error .identicalEvents := by
  rw [lessThanRand_eq he he, SigBuffer.comparePtr_zero.mpr rfl, decideBy_zero, decideById_self]

/-- Among events with different ids or senders, the function is the order of the keys. -/
theorem lessThanRand_iff {ι : Type} {ev : ι → PqEvent T}
    (hts : ∀ i, (ev i).recvTs = (ev i).sig.recvTs)
    (hkey : Function.Injective fun i => (ev i).key) (i j : ι) :
    (ev i).lessThanRand (ev j) = .ok true ↔ (ev i).key < (ev j).key := by
  by_cases hij : i = j
  · rw [hij, lessThanRand_self (hts j)]
    exact ⟨nofun, fun hlt => absurd hlt (lt_irrefl _)⟩
  · rw [lessThanRand_ok (hts i) (hts j) fun h => hij (hkey h), Except.ok.injEq,
      decide_eq_true_eq]

end PqEvent

/-! ## The two orders -/

/-- The comparison of signatures is a total preorder. -/
theorem comparePtr_preorder : IsPreorder (SigBuffer T) fun a b => a.comparePtr b ≤ 0 where
  refl a := SigBuffer.comparePtr_nonpos.mpr le_rfl
  trans a b c hab hbc := by
    have hab' := SigBuffer.comparePtr_nonpos.mp hab
    have hbc' := SigBuffer.comparePtr_nonpos.mp hbc
    exact SigBuffer.comparePtr_nonpos.mpr (hab'.trans hbc')

theorem comparePtr_total : Std.Total fun a b : SigBuffer T => a.comparePtr b ≤ 0 where
  total a b := by
    simp only [SigBuffer.comparePtr_nonpos]
    exact le_total a.sig b.sig

/-- Different keys make the order of the events strict and total. -/
theorem lessThanRand_strictTotalOrder {ι : Type} {ev : ι → PqEvent T}
    (hts : ∀ i, (ev i).recvTs = (ev i).sig.recvTs)
    (hkey : Function.Injective fun i => (ev i).key) :
    IsStrictTotalOrder ι fun i j => (ev i).lessThanRand (ev j) = .ok true where
  irrefl i := by
    rw [PqEvent.lessThanRand_iff hts hkey]
    exact lt_irrefl _
  trans i j k := by
    simp only [PqEvent.lessThanRand_iff hts hkey]
    exact lt_trans
  trichotomous i j hij hji := by
    rw [PqEvent.lessThanRand_iff hts hkey, not_lt] at hij hji
    exact hkey (le_antisymm hji hij)

/-- The two orders agree: `tw_event_sig_compare_ptr` is a total preorder that ties the signatures
whose times, priorities and significant lineages are equal, and `tw_pq_compare_less_than_rand` is a
strict total order that refines it on events with different ids or senders. -/
theorem signature_orders_agree {ι : Type} (ev : ι → PqEvent T)
    (hts : ∀ i, (ev i).recvTs = (ev i).sig.recvTs)
    (hids : Function.Injective fun i => ((ev i).eventId, (ev i).sendPe)) :
    IsPreorder (SigBuffer T) (fun a b => a.comparePtr b ≤ 0) ∧
    Std.Total (fun a b : SigBuffer T => a.comparePtr b ≤ 0) ∧
    (∀ a b : SigBuffer T, a.comparePtr b = -b.comparePtr a) ∧
    (∀ a b : SigBuffer T, a.comparePtr b = 0 ↔
      a.recvTs = b.recvTs ∧ a.priority = b.priority ∧ a.tieLineageLength = b.tieLineageLength ∧
        ∀ i < a.tieLineageLength, a.eventTiebreaker i = b.eventTiebreaker i) ∧
    (∀ i j, i ≠ j → ∃ less, (ev i).lessThanRand (ev j) = .ok less) ∧
    IsStrictTotalOrder ι (fun i j => (ev i).lessThanRand (ev j) = .ok true) ∧
    ∀ i j, ((ev i).sig.comparePtr (ev j).sig < 0 → (ev i).lessThanRand (ev j) = .ok true) ∧
      ((ev i).lessThanRand (ev j) = .ok true → (ev i).sig.comparePtr (ev j).sig ≤ 0) := by
  have hkey : Function.Injective fun i => (ev i).key := by
    intro i j hij
    apply hids
    have hlex := congrArg (fun k => ofLex (ofLex k).2) hij
    exact hlex
  refine ⟨comparePtr_preorder, comparePtr_total, SigBuffer.comparePtr_swap,
    fun a b => SigBuffer.comparePtr_zero.trans SigBuffer.sig_eq_iff, ?_,
    lessThanRand_strictTotalOrder hts hkey, ?_⟩
  · intro i j hij
    exact ⟨_, PqEvent.lessThanRand_ok (hts i) (hts j) fun h => hij (hkey h)⟩
  · intro i j
    rw [PqEvent.lessThanRand_iff hts hkey, SigBuffer.comparePtr_neg, SigBuffer.comparePtr_nonpos]
    constructor
    · intro hlt
      exact decisionKey_lt.mpr (.inl hlt)
    · intro hlt
      rcases decisionKey_lt.mp hlt with hsig | ⟨hsig, -⟩
      · exact hsig.le
      · exact hsig.le

/-- Two events with equal lineages of two tiebreakers, behind which other values are left, and an
event with a longer lineage. -/
def tiedEvents (i : Fin 3) : PqEvent Int :=
  ⟨5, ⟨5, 0, if i = 2 then 3 else 2, fun j => if j < 2 then 7 else i⟩, 4, i⟩

theorem signature_orders_agree_tied :
    IsStrictTotalOrder (Fin 3)
      (fun i j => (tiedEvents i).lessThanRand (tiedEvents j) = .ok true) ∧
    (tiedEvents 0).sig.comparePtr (tiedEvents 1).sig = 0 ∧
    (tiedEvents 1).sig.comparePtr (tiedEvents 2).sig = -1 := by
  have hagree := signature_orders_agree tiedEvents (by decide)
    fun i j h => Fin.ext (congrArg Prod.snd h)
  exact ⟨hagree.2.2.2.2.2.1, by decide, by decide⟩

end Ross

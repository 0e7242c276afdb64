import Mathlib.Data.List.Lex
import Mathlib.Data.Prod.Lex
import Mathlib.Order.Lattice
import Mathlib.Algebra.Order.Ring.Int

/-!
# Event signatures

`tw_stime`, `tw_event_sig` and `tw_event_sig_compare_ptr` of `ross-types.h`,
under `USE_RAND_TIEBREAKER`.  A signature keeps the significant prefix
`event_tiebreaker[0 .. tie_lineage_length)` of its tie lineage as a list, so
that the comparison becomes a linear order: first the timestamp, then the
priority, then the lineage lexicographically with the shorter one first.
-/

namespace Ross

/-- What the kernel uses of `tw_stime`: a linear order (no NaN), the arithmetic
of `TW_STIME_ADD` and of the lookahead tests, and `TW_STIME_MAX`. -/
class TwStime (T : Type) extends LinearOrder T, Add T, Sub T, Zero T, One T where
  stimeMax : T

/-- Integer time, for the runs that are evaluated. -/
instance : TwStime Int where
  stimeMax := 1000000

/-- `MAX_TIE_CHAIN` of `ross-types.h`. -/
def maxTieChain : Nat := 20

/-- `tw_event_sig`. -/
structure TwEventSig (T : Type) where
  recvTs : T
  priority : T
  eventTiebreaker : List T
deriving DecidableEq

namespace TwEventSig

variable {T : Type}

/-- `tie_lineage_length`. -/
def tieLineageLength (sig : TwEventSig T) : Nat := sig.eventTiebreaker.length

/-- The key whose lexicographic order is the order of signatures. -/
def key (sig : TwEventSig T) : T ×ₗ T ×ₗ List T :=
  toLex (sig.recvTs, toLex (sig.priority, sig.eventTiebreaker))

theorem key_injective : Function.Injective (key (T := T)) := by
  rintro ⟨t, p, l⟩ ⟨t', p', l'⟩ h
  simp only [key, EmbeddingLike.apply_eq_iff_eq, Prod.mk.injEq] at h
  obtain ⟨rfl, rfl, rfl⟩ := h
  rfl

instance [LinearOrder T] : LinearOrder (TwEventSig T) :=
  LinearOrder.lift' key key_injective

variable [LinearOrder T]

theorem lt_iff {a b : TwEventSig T} :
    a < b ↔ a.recvTs < b.recvTs ∨ a.recvTs = b.recvTs ∧
      (a.priority < b.priority ∨ a.priority = b.priority ∧
        a.eventTiebreaker < b.eventTiebreaker) := by
  show a.key < b.key ↔ _
  simp only [key, Prod.Lex.toLex_lt_toLex]

theorem recvTs_le_of_le {a b : TwEventSig T} (h : a ≤ b) : a.recvTs ≤ b.recvTs := by
  rcases h.lt_or_eq with hlt | rfl
  · rcases lt_iff.mp hlt with h | ⟨h, _⟩
    · exact h.le
    · exact h.le
  · exact le_rfl

theorem lt_of_recvTs_lt {a b : TwEventSig T} (h : a.recvTs < b.recvTs) : a < b :=
  lt_iff.mpr (.inl h)

end TwEventSig

section Compare

variable {T : Type} [LinearOrder T]

/-- `TW_STIME_CMP`. -/
def twStimeCmp (x y : T) : Int := if x < y then -1 else if y < x then 1 else 0

/-- The loop of `tw_event_sig_compare_ptr` over the common part of the two tie
lineages, and the comparison of their lengths after it. -/
def compareLineage : List T → List T → Int
  | [], [] => 0
  | [], _ :: _ => -1
  | _ :: _, [] => 1
  | a :: as, b :: bs => if a < b then -1 else if b < a then 1 else compareLineage as bs

/-- `tw_event_sig_compare_ptr`. -/
def twEventSigComparePtr (e n : TwEventSig T) : Int :=
  let timeCompare := twStimeCmp e.recvTs n.recvTs
  if timeCompare ≠ 0 then timeCompare
  else
    let prioCompare := twStimeCmp e.priority n.priority
    if prioCompare ≠ 0 then prioCompare
    else compareLineage e.eventTiebreaker n.eventTiebreaker

theorem twStimeCmp_cases (x y : T) :
    x < y ∧ twStimeCmp x y = -1 ∨ x = y ∧ twStimeCmp x y = 0 ∨ y < x ∧ twStimeCmp x y = 1 := by
  rcases lt_trichotomy x y with h | h | h
  · exact .inl ⟨h, by simp [twStimeCmp, h]⟩
  · exact .inr (.inl ⟨h, by simp [twStimeCmp, h]⟩)
  · exact .inr (.inr ⟨h, by simp [twStimeCmp, h, h.not_gt]⟩)

theorem compareLineage_cases (as bs : List T) :
    as < bs ∧ compareLineage as bs = -1 ∨ as = bs ∧ compareLineage as bs = 0 ∨
      bs < as ∧ compareLineage as bs = 1 := by
  induction as generalizing bs with
  | nil =>
      cases bs with
      | nil => exact .inr (.inl ⟨rfl, rfl⟩)
      | cons b bs => exact .inl ⟨List.nil_lt_cons b bs, rfl⟩
  | cons a as ih =>
      cases bs with
      | nil => exact .inr (.inr ⟨List.nil_lt_cons a as, rfl⟩)
      | cons b bs =>
          rcases lt_trichotomy a b with h | rfl | h
          · exact .inl ⟨List.cons_lt_cons_iff.mpr (.inl h), by simp [compareLineage, h]⟩
          · rcases ih bs with ⟨h, e⟩ | ⟨h, e⟩ | ⟨h, e⟩
            · exact .inl ⟨List.cons_lt_cons_iff.mpr (.inr ⟨rfl, h⟩), by simp [compareLineage, e]⟩
            · exact .inr (.inl ⟨by rw [h], by simp [compareLineage, e]⟩)
            · exact .inr (.inr
                ⟨List.cons_lt_cons_iff.mpr (.inr ⟨rfl, h⟩), by simp [compareLineage, e]⟩)
          · exact .inr (.inr
              ⟨List.cons_lt_cons_iff.mpr (.inl h), by simp [compareLineage, h, h.not_gt]⟩)

/-- The comparison function decides the order of signatures. -/
theorem twEventSigComparePtr_cases (a b : TwEventSig T) :
    a < b ∧ twEventSigComparePtr a b = -1 ∨ a = b ∧ twEventSigComparePtr a b = 0 ∨
      b < a ∧ twEventSigComparePtr a b = 1 := by
  obtain ⟨t, p, l⟩ := a
  obtain ⟨t', p', l'⟩ := b
  rcases twStimeCmp_cases t t' with ⟨ht, et⟩ | ⟨rfl, et⟩ | ⟨ht, et⟩
  · exact .inl ⟨TwEventSig.lt_iff.mpr (.inl ht), by simp [twEventSigComparePtr, et]⟩
  · rcases twStimeCmp_cases p p' with ⟨hp, ep⟩ | ⟨rfl, ep⟩ | ⟨hp, ep⟩
    · exact .inl ⟨TwEventSig.lt_iff.mpr (.inr ⟨rfl, .inl hp⟩),
        by simp [twEventSigComparePtr, et, ep]⟩
    · rcases compareLineage_cases l l' with ⟨hl, el⟩ | ⟨rfl, el⟩ | ⟨hl, el⟩
      · exact .inl ⟨TwEventSig.lt_iff.mpr (.inr ⟨rfl, .inr ⟨rfl, hl⟩⟩),
          by simp [twEventSigComparePtr, et, ep, el]⟩
      · exact .inr (.inl ⟨rfl, by simp [twEventSigComparePtr, et, ep, el]⟩)
      · exact .inr (.inr ⟨TwEventSig.lt_iff.mpr (.inr ⟨rfl, .inr ⟨rfl, hl⟩⟩),
          by simp [twEventSigComparePtr, et, ep, el]⟩)
    · exact .inr (.inr ⟨TwEventSig.lt_iff.mpr (.inr ⟨rfl, .inl hp⟩),
        by simp [twEventSigComparePtr, et, ep]⟩)
  · exact .inr (.inr ⟨TwEventSig.lt_iff.mpr (.inl ht), by simp [twEventSigComparePtr, et]⟩)

@[simp] theorem twEventSigComparePtr_neg {a b : TwEventSig T} :
    twEventSigComparePtr a b < 0 ↔ a < b := by
  rcases twEventSigComparePtr_cases a b with ⟨h, e⟩ | ⟨h, e⟩ | ⟨h, e⟩
  · simp only [e, h]; decide
  · rw [e]; simp [h]
  · rw [e]; simp [h.le]

@[simp] theorem twEventSigComparePtr_pos {a b : TwEventSig T} :
    0 < twEventSigComparePtr a b ↔ b < a := by
  rcases twEventSigComparePtr_cases a b with ⟨h, e⟩ | ⟨h, e⟩ | ⟨h, e⟩
  · rw [e]; simp [h.le]
  · rw [e]; simp [h]
  · simp only [e, h]; decide

@[simp] theorem twEventSigComparePtr_nonpos {a b : TwEventSig T} :
    twEventSigComparePtr a b ≤ 0 ↔ a ≤ b := by
  rw [← not_lt, twEventSigComparePtr_pos, not_lt]

@[simp] theorem twEventSigComparePtr_nonneg {a b : TwEventSig T} :
    0 ≤ twEventSigComparePtr a b ↔ b ≤ a := by
  rw [← not_lt, twEventSigComparePtr_neg, not_lt]

end Compare

/-- `g_tw_max_sig`. -/
def maxSig {T : Type} [TwStime T] : TwEventSig T :=
  ⟨TwStime.stimeMax, TwStime.stimeMax, [TwStime.stimeMax]⟩

/-- The signature of zeroed memory. -/
def zeroSig {T : Type} [TwStime T] : TwEventSig T := ⟨0, 0, []⟩

/-- Replace `sig` by `cand` when `cand` is not larger: the update of
`trans_msg_sig` in `tw_event_send`, `event_cancel` and `recv_finish`. -/
def lowerSig {T : Type} [LinearOrder T] (sig cand : TwEventSig T) : TwEventSig T :=
  if 0 ≤ twEventSigComparePtr sig cand then cand else sig

theorem lowerSig_eq_min {T : Type} [LinearOrder T] (sig cand : TwEventSig T) :
    lowerSig sig cand = min sig cand := by
  simp only [lowerSig, twEventSigComparePtr_nonneg]
  split_ifs with h
  · exact (min_eq_right h).symm
  · exact (min_eq_left (le_of_not_ge h)).symm

end Ross

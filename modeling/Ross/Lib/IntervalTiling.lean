import Mathlib.Algebra.BigOperators.Group.Finset.Basic
import Mathlib.Algebra.Order.BigOperators.Group.Finset
import Mathlib.Data.Fintype.Basic
import Mathlib.Order.Interval.Finset.Nat

/-!
# Intervals that tile

Intervals of natural numbers, of any starts, tile the numbers below the sum of
their lengths exactly when each starts where the ones in front of it end.
-/

namespace IntervalTiling

variable {ι : Type*} [Fintype ι] [LinearOrder ι] (start len : ι → Nat)

/-- The intervals that start in front of the `i`-th; of equal starts the lower index
is in front. -/
def before (i : ι) : Finset ι :=
  Finset.univ.filter fun j => start j < start i ∨ start j = start i ∧ j < i

/-- Each interval starts where the ones in front of it end. -/
def Packed : Prop := ∀ i, start i = ∑ j ∈ before start i, len j

instance : Decidable (Packed start len) :=
  inferInstanceAs (Decidable (∀ i, start i = ∑ j ∈ before start i, len j))

/-- The intervals are disjoint and cover the numbers below the sum of the lengths. -/
structure Tiles : Prop where
  disjoint : ∀ i j x, x ∈ Finset.Ico (start i) (start i + len i) →
    x ∈ Finset.Ico (start j) (start j + len j) → i = j
  covers : ∀ x, (∃ i, x ∈ Finset.Ico (start i) (start i + len i)) ↔ x < ∑ i, len i

variable {start len} {i j : ι}

theorem mem_before : j ∈ before start i ↔ start j < start i ∨ start j = start i ∧ j < i := by
  rw [before, Finset.mem_filter, and_iff_right (Finset.mem_univ j)]

theorem before_or (hne : i ≠ j) : i ∈ before start j ∨ j ∈ before start i := by
  rw [mem_before, mem_before]
  rcases lt_trichotomy (start i) (start j) with h | h | h
  · exact .inl (.inl h)
  · rcases lt_or_gt_of_ne hne with hij | hij
    · exact .inl (.inr ⟨h, hij⟩)
    · exact .inr (.inr ⟨h.symm, hij⟩)
  · exact .inr (.inl h)

theorem notMem_before : i ∉ before start i := by
  rw [mem_before]
  rintro (h | ⟨-, h⟩)
  · exact lt_irrefl _ h
  · exact lt_irrefl _ h

theorem before_subset (h : j ∈ before start i) : before start j ⊆ before start i := by
  intro k hk
  rw [mem_before] at h hk ⊢
  rcases hk with hk | ⟨hk, hkj⟩ <;> rcases h with h | ⟨h, hji⟩
  · exact .inl (hk.trans h)
  · exact .inl (hk.trans_eq h)
  · exact .inl (hk.trans_lt h)
  · exact .inr ⟨hk.trans h, hkj.trans hji⟩

namespace Packed

/-- An interval in front ends where the next one starts or before. -/
theorem end_le (hp : Packed start len) (h : j ∈ before start i) : start j + len j ≤ start i := by
  have hsub : insert j (before start j) ⊆ before start i :=
    Finset.insert_subset h (before_subset h)
  calc start j + len j = len j + ∑ k ∈ before start j, len k := by rw [← hp j, add_comm]
    _ = ∑ k ∈ insert j (before start j), len k := (Finset.sum_insert notMem_before).symm
    _ ≤ ∑ k ∈ before start i, len k := Finset.sum_le_sum_of_subset hsub
    _ = start i := (hp i).symm

theorem end_le_sum (hp : Packed start len) (i : ι) : start i + len i ≤ ∑ k, len k := by
  calc start i + len i = len i + ∑ k ∈ before start i, len k := by rw [← hp i, add_comm]
    _ = ∑ k ∈ insert i (before start i), len k := (Finset.sum_insert notMem_before).symm
    _ ≤ ∑ k, len k := Finset.sum_le_sum_of_subset (Finset.subset_univ _)

theorem disjoint (hp : Packed start len) (x : Nat)
    (hi : x ∈ Finset.Ico (start i) (start i + len i))
    (hj : x ∈ Finset.Ico (start j) (start j + len j)) : i = j := by
  rw [Finset.mem_Ico] at hi hj
  by_contra hne
  have hor : i ∈ before start j ∨ j ∈ before start i := before_or hne
  rcases hor with h | h
  · have := hp.end_le h
    omega
  · have := hp.end_le h
    omega

theorem tiles (hp : Packed start len) : Tiles start len := by
  have hdisj : ((Finset.univ : Finset ι) : Set ι).PairwiseDisjoint
      fun i => Finset.Ico (start i) (start i + len i) := by
    intro i _ j _ hne
    exact Finset.disjoint_left.mpr fun x hi hj => hne (hp.disjoint x hi hj)
  have hcard : (Finset.univ.biUnion fun i => Finset.Ico (start i) (start i + len i)).card =
      ∑ i, len i := by
    rw [Finset.card_biUnion hdisj]
    exact Finset.sum_congr rfl fun i _ => by rw [Nat.card_Ico, Nat.add_sub_cancel_left]
  have hsub : (Finset.univ.biUnion fun i => Finset.Ico (start i) (start i + len i)) ⊆
      Finset.range (∑ i, len i) := by
    intro x hx
    obtain ⟨i, -, hi⟩ := Finset.mem_biUnion.mp hx
    rw [Finset.mem_Ico] at hi
    exact Finset.mem_range.mpr (hi.2.trans_le (hp.end_le_sum i))
  have heq := Finset.eq_of_subset_of_card_le hsub (by rw [Finset.card_range, hcard])
  refine ⟨fun i j x => hp.disjoint x, fun x => ?_⟩
  rw [← Finset.mem_range, ← heq, Finset.mem_biUnion]
  simp only [Finset.mem_univ, true_and]

end Packed

/-- Tiles are packed, from the lengths of the intervals in front of each. -/
theorem Tiles.packed (ht : Tiles start len) (hlen : ∀ i, 0 < len i) : Packed start len := by
  intro i
  have hself : ∀ i, start i ∈ Finset.Ico (start i) (start i + len i) := by
    intro i
    have := hlen i
    rw [Finset.mem_Ico]
    omega
  have hlt : start i < ∑ k, len k := (ht.covers _).mp ⟨i, hself i⟩
  have hrange : Finset.range (start i) =
      (before start i).biUnion fun j => Finset.Ico (start j) (start j + len j) := by
    ext x
    rw [Finset.mem_range, Finset.mem_biUnion]
    constructor
    · intro hx
      obtain ⟨j, hj⟩ := (ht.covers x).mpr (hx.trans hlt)
      have hxj := (Finset.mem_Ico.mp hj).1
      exact ⟨j, mem_before.mpr (.inl (hxj.trans_lt hx)), hj⟩
    · rintro ⟨j, hj, hx⟩
      have hle : start j ≤ start i := by
        rcases mem_before.mp hj with h | ⟨h, -⟩
        · exact h.le
        · exact h.le
      by_contra hge
      rw [Finset.mem_Ico] at hx
      have hij : j = i := ht.disjoint j i (start i)
        (Finset.mem_Ico.mpr ⟨hle, by omega⟩) (hself i)
      exact notMem_before (hij ▸ hj)
  have hdisj : ((before start i : Finset ι) : Set ι).PairwiseDisjoint
      fun j => Finset.Ico (start j) (start j + len j) := by
    intro j _ k _ hne
    exact Finset.disjoint_left.mpr fun x hj hk => hne (ht.disjoint j k x hj hk)
  calc start i = (Finset.range (start i)).card := (Finset.card_range _).symm
    _ = ∑ j ∈ before start i, (Finset.Ico (start j) (start j + len j)).card := by
        rw [hrange, Finset.card_biUnion hdisj]
    _ = ∑ j ∈ before start i, len j :=
        Finset.sum_congr rfl fun j _ => by rw [Nat.card_Ico, Nat.add_sub_cancel_left]

theorem tiles_iff_packed (hlen : ∀ i, 0 < len i) : Tiles start len ↔ Packed start len :=
  ⟨fun h => h.packed hlen, Packed.tiles⟩

end IntervalTiling

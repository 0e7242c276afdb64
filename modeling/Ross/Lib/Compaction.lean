import Mathlib.Data.List.Range
import Mathlib.Logic.Function.Basic

/-!
# Compaction in place

A loop with two indices moves the elements that are kept to the front of an array.  Elements behind
the new end are left as they are.
-/

namespace Ross

variable {α : Type}

/-- The loop, from the element `i` on with `turns` turns to go, when `n` elements are in place. -/
def compactLoop (keep : α → Bool) : Nat → Nat → Nat → (Nat → α) → Nat → α
  | 0, _, _, a => a
  | turns + 1, i, n, a =>
      if keep (a i) then
        compactLoop keep turns (i + 1) (n + 1) (if i ≠ n then Function.update a n (a i) else a)
      else compactLoop keep turns (i + 1) n a

/-- The elements of the array from `i` on. -/
def arraySlice (a : Nat → α) (i len : Nat) : List α := (List.range' i len).map a

theorem arraySlice_succ (a : Nat → α) (i len : Nat) :
    arraySlice a i (len + 1) = a i :: arraySlice a (i + 1) len := rfl

theorem arraySlice_congr {a b : Nat → α} {i len : Nat} (h : ∀ j, i ≤ j → j < i + len → a j = b j) :
    arraySlice a i len = arraySlice b i len := by
  apply List.map_congr_left
  intro j hj
  rw [List.mem_range'_1] at hj
  exact h j hj.1 hj.2

theorem update_self_of_eq (a : Nat → α) {i n : Nat} :
    (if i ≠ n then Function.update a n (a i) else a) = Function.update a n (a i) := by
  by_cases hin : i = n
  · rw [if_neg (not_not.mpr hin), hin, Function.update_eq_self]
  · rw [if_pos hin]

/-- What is kept stands from `n` on, in the order it had, and what is in front of `n` is as
before. -/
theorem compactLoop_slice (keep : α → Bool) (turns : Nat) (a : Nat → α) {i n : Nat} (h : n ≤ i) :
    (∀ j < n, compactLoop keep turns i n a j = a j) ∧
    arraySlice (compactLoop keep turns i n a) n ((arraySlice a i turns).filter keep).length =
      (arraySlice a i turns).filter keep := by
  induction turns generalizing i n a with
  | zero => exact ⟨fun j _ => rfl, rfl⟩
  | succ turns ih =>
      rw [arraySlice_succ]
      unfold compactLoop
      by_cases hkeep : keep (a i) = true
      · rw [if_pos hkeep, update_self_of_eq a, List.filter_cons_of_pos hkeep, List.length_cons]
        obtain ⟨hfront, hslice⟩ := ih (Function.update a n (a i)) (Nat.succ_le_succ h)
        -- The elements still to come are not written.
        have hrest : arraySlice (Function.update a n (a i)) (i + 1) turns =
            arraySlice a (i + 1) turns :=
          arraySlice_congr fun j hle _ => Function.update_of_ne (by omega) _ _
        rw [hrest] at hslice
        constructor
        · intro j hj
          rw [hfront j (by omega), Function.update_of_ne (by omega)]
        · rw [arraySlice_succ, hslice, hfront n (Nat.lt_succ_self n), Function.update_self]
      · rw [if_neg hkeep, List.filter_cons_of_neg hkeep]
        exact ih a (h.trans (Nat.le_succ i))

end Ross

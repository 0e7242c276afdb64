import Mathlib.Algebra.Group.Basic
import Mathlib.Algebra.Ring.Nat
import Mathlib.Data.List.Zip

/-!
# Buffers that bytes are copied into

A buffer keeps what lies behind the part that a copy overwrites.
-/

namespace ByteBuffer

variable {α : Type*} {into new into' : List α} {n : Nat}

/-- The buffer after `new` was copied to its start. -/
def copyInto (into new : List α) : List α := new ++ into.drop new.length

/-- A copy that fits keeps the size of the buffer. -/
theorem length_copyInto (h : new.length ≤ into.length) :
    (copyInto into new).length = into.length := by
  rw [copyInto, List.length_append, List.length_drop]
  omega

theorem take_copyInto (h : n ≤ new.length) : (copyInto into new).take n = new.take n := by
  rw [copyInto, List.take_append_of_le_length h]

/-- What was copied is read back. -/
theorem take_length_copyInto (into new : List α) :
    (copyInto into new).take new.length = new := by
  rw [take_copyInto le_rfl, List.take_length]

/-- What lies behind a copy is what lay there before. -/
theorem getElem?_copyInto (h : new.length ≤ n) : (copyInto into new)[n]? = into[n]? := by
  rw [copyInto, List.getElem?_append_right h, List.getElem?_drop]
  congr 1
  omega

/-! ## Differences -/

/-- Subtracting a difference gives back what was subtracted. -/
theorem zipWith_sub_sub {β : Type*} [Sub β] (hsub : ∀ a b : β, a - (a - b) = b) {as bs : List β}
    (h : as.length = bs.length) :
    List.zipWith (· - ·) as (List.zipWith (· - ·) as bs) = bs := by
  induction as generalizing bs with
  | nil => exact (List.length_eq_zero_iff.mp h.symm).symm
  | cons a as ih =>
      cases bs with
      | nil => cases h
      | cons b bs =>
          rw [List.zipWith_cons_cons, List.zipWith_cons_cons, hsub, ih (Nat.succ.inj h)]

end ByteBuffer

import Mathlib.Algebra.BigOperators.Group.Finset.Piecewise
import Mathlib.Algebra.Order.BigOperators.Group.Finset

/-!
# Counting messages in channels

Any number of parties, each with a list of the messages that it sent, by addressee, and of those
that it received, by sender.  When no channel delivered more than was sent on it and as much was
received as was sent in all, every channel delivered all that was sent on it.
-/

namespace ChannelCount

variable {α β : Type*}

/-- The elements of a list by the value of `f`, for the values below `n`. -/
theorem sum_filter_eq (f : α → Nat) (n : Nat) (l : List α) :
    ∑ i ∈ Finset.range n, (l.filter fun x => f x = i).length =
      (l.filter fun x => f x < n).length := by
  induction l with
  | nil => exact Finset.sum_eq_zero fun _ _ => rfl
  | cons a l ih =>
      have hcons : ∀ i, ((a :: l).filter fun x => f x = i).length =
          (l.filter fun x => f x = i).length + if f a = i then 1 else 0 := by
        intro i
        by_cases hi : f a = i
        · rw [List.filter_cons_of_pos (by simpa using hi), List.length_cons, if_pos hi]
        · rw [List.filter_cons_of_neg (by simpa using hi), if_neg hi, Nat.add_zero]
      rw [Finset.sum_congr rfl fun i _ => hcons i, Finset.sum_add_distrib, ih,
        Finset.sum_ite_eq]
      by_cases ha : f a < n
      · rw [if_pos (Finset.mem_range.mpr ha), List.filter_cons_of_pos (by simpa using ha),
          List.length_cons]
      · rw [if_neg fun hmem => ha (Finset.mem_range.mp hmem),
          List.filter_cons_of_neg (by simpa using ha), Nat.add_zero]

variable {n : Nat} {addressee : α → Nat} {sender : β → Nat} {sent : Nat → List α}
  {received : Nat → List β}

/-- No message is under way when as many were received as were sent. -/
theorem all_received (hfrom : ∀ j < n, ∀ y ∈ received j, sender y < n)
    (hle : ∀ i < n, ∀ j < n, ((received j).filter fun y => sender y = i).length ≤
      ((sent i).filter fun x => addressee x = j).length)
    (htotal : ∑ i ∈ Finset.range n, (sent i).length =
      ∑ j ∈ Finset.range n, (received j).length) :
    (∀ i < n, ∀ x ∈ sent i, addressee x < n) ∧
      ∀ i < n, ∀ j < n, ((received j).filter fun y => sender y = i).length =
        ((sent i).filter fun x => addressee x = j).length := by
  have hrecv : ∑ j ∈ Finset.range n, (received j).length =
      ∑ i ∈ Finset.range n, ∑ j ∈ Finset.range n,
        ((received j).filter fun y => sender y = i).length := by
    rw [Finset.sum_comm]
    refine Finset.sum_congr rfl fun j hj => ?_
    rw [sum_filter_eq, List.filter_eq_self.mpr fun y hy => ?_]
    exact decide_eq_true (hfrom j (Finset.mem_range.mp hj) y hy)
  have hwithin : ∀ i, ∑ j ∈ Finset.range n, ((sent i).filter fun x => addressee x = j).length =
      ((sent i).filter fun x => addressee x < n).length := fun i =>
    sum_filter_eq addressee n (sent i)
  have hrow : ∀ i ∈ Finset.range n, ∑ j ∈ Finset.range n,
      ((received j).filter fun y => sender y = i).length ≤
        ((sent i).filter fun x => addressee x < n).length := by
    intro i hi
    rw [← hwithin]
    exact Finset.sum_le_sum fun j hj => hle i (Finset.mem_range.mp hi) j (Finset.mem_range.mp hj)
  have hlen : ∀ i ∈ Finset.range n, ((sent i).filter fun x => addressee x < n).length ≤
      (sent i).length := fun i _ => List.length_filter_le _ _
  -- Both inequalities are equalities, since the two ends are equal.
  have hsame : ∑ i ∈ Finset.range n, ((sent i).filter fun x => addressee x < n).length =
      ∑ i ∈ Finset.range n, (sent i).length := by
    refine le_antisymm (Finset.sum_le_sum hlen) ?_
    rw [htotal, hrecv]
    exact Finset.sum_le_sum hrow
  have hall := (Finset.sum_eq_sum_iff_of_le hlen).mp hsame
  have hrows := (Finset.sum_eq_sum_iff_of_le hrow).mp (by rw [← hrecv, ← htotal, hsame])
  refine ⟨fun i hi x hx => ?_, fun i hi j hj => ?_⟩
  · have hself := List.length_filter_eq_length_iff.mp (hall i (Finset.mem_range.mpr hi)) x hx
    exact of_decide_eq_true hself
  · have hi' := hrows i (Finset.mem_range.mpr hi)
    rw [← hwithin] at hi'
    exact (Finset.sum_eq_sum_iff_of_le fun j hj =>
      hle i hi j (Finset.mem_range.mp hj)).mp hi' j (Finset.mem_range.mpr hj)

end ChannelCount

/-!
# Reductions

A reduction combines values two by two, in the shape of a binary tree.  The operation can fail.
-/

namespace Ross

/-- The shape in which a reduction combines its values. -/
inductive ReduceTree (α : Type)
  | leaf (a : α)
  | node (l r : ReduceTree α)

namespace ReduceTree

variable {α β ε : Type}

/-- The values, from left to right. -/
def leaves : ReduceTree α → List α
  | leaf a => [a]
  | node l r => l.leaves ++ r.leaves

/-- The result of the reduction. -/
def reduce (op : α → α → Except ε α) : ReduceTree α → Except ε α
  | leaf a => .ok a
  | node l r => do
      let a ← l.reduce op
      let b ← r.reduce op
      op a b

variable {op : α → α → Except ε α}

/-- What holds of a value alone, and of what the operation makes of two results, holds of the result
of every reduction. -/
theorem reduce_ok {P : List α → α → Prop} {Q : α → Prop} (hleaf : ∀ a, Q a → P [a] a)
    (hop : ∀ l r a b, P l a → P r b → ∃ c, op a b = .ok c ∧ P (l ++ r) c) (tree : ReduceTree α)
    (hQ : ∀ a ∈ tree.leaves, Q a) : ∃ c, tree.reduce op = .ok c ∧ P tree.leaves c := by
  induction tree with
  | leaf a => exact ⟨a, rfl, hleaf a (hQ a (List.mem_singleton_self a))⟩
  | node l r ihl ihr =>
      obtain ⟨a, ha, hPa⟩ := ihl fun x hx => hQ x (List.mem_append_left _ hx)
      obtain ⟨b, hb, hPb⟩ := ihr fun x hx => hQ x (List.mem_append_right _ hx)
      obtain ⟨c, hc, hPc⟩ := hop _ _ a b hPa hPb
      refine ⟨c, ?_, hPc⟩
      unfold reduce
      rw [ha, hb]
      exact hc

end ReduceTree

end Ross

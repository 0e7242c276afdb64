import Ross.Core.AvlTree
import Mathlib.Algebra.Order.Group.Multiset
import Mathlib.Data.Multiset.AddSub

/-!
# Rebalancing an AVL tree

What `avlRebalance` does to a node whose children have right heights: it fixes
the height of the node, or rotates once or twice.  No rotation meets an empty
child, and each keeps the order of the events and the nodes in use.
-/

namespace Ross.AvlTree

open LinkedTree

variable {E : Type}

/-! ## Nodes seen from one side -/

/-- The node whose `child[d]` is `x` and whose other child is `y`. -/
def join (d : Side) (a : Nat) (k : E) (h : Nat) (x y : AvlTree E) : AvlTree E :=
  match d with
  | .left => .node a k h x y
  | .right => .node a k h y x

/-- The same with the height that `avlFixHeight` writes. -/
def fixed (d : Side) (a : Nat) (k : E) (x y : AvlTree E) : AvlTree E :=
  join d a k (1 + max x.avlGetHeight y.avlGetHeight) x y

variable {d : Side} {a b c : Nat} {k j l : E} {h i g : Nat} {x y x₁ x₂ z₁ z₂ : AvlTree E}

@[simp] theorem child_join : (join d a k h x y).child d = x := by cases d <;> rfl

@[simp] theorem child_flip_join : (join d a k h x y).child d.flip = y := by cases d <;> rfl

@[simp] theorem join_ne_empty : join d a k h x y ≠ .empty := by cases d <;> exact nofun

@[simp] theorem height_join : (join d a k h x y).avlGetHeight = h := by cases d <;> rfl

@[simp] theorem height_fixed :
    (fixed d a k x y).avlGetHeight = 1 + max x.avlGetHeight y.avlGetHeight := height_join

theorem join_flip : join d.flip a k h x y = join d a k h y x := by cases d <;> rfl

theorem fixed_flip : fixed d.flip a k x y = fixed d a k y x := by
  unfold fixed
  rw [join_flip, max_comm]

@[simp] theorem setChild_join {z : AvlTree E} :
    (join d a k h x y).setChild d z = join d a k h z y := by cases d <;> rfl

@[simp] theorem setChild_flip_join {z : AvlTree E} :
    (join d a k h x y).setChild d.flip z = join d a k h x z := by cases d <;> rfl

@[simp] theorem avlFixHeight_join : (join d a k h x y).avlFixHeight = .ok (fixed d a k x y) := by
  cases d
  · rfl
  · simp only [join, avlFixHeight, fixed, max_comm]

theorem exists_join {t : AvlTree E} (ht : t ≠ .empty) (d : Side) :
    ∃ a k h x y, t = join d a k h x y := by
  cases t with
  | empty => exact absurd rfl ht
  | node a k h l r =>
      cases d with
      | left => exact ⟨a, k, h, l, r, rfl⟩
      | right => exact ⟨a, k, h, r, l, rfl⟩

/-! ## The rotations -/

theorem avlRotate_join : (join d a k h (join d b j i x₁ x₂) y).avlRotate d =
    .ok (fixed d b j x₁ (fixed d a k x₂ y)) := by
  unfold avlRotate
  rw [child_join]
  split
  next hx => exact absurd hx join_ne_empty
  next hx => simp only [child_flip_join, setChild_join, avlFixHeight_join, setChild_flip_join]

theorem rotateTall_single (hlt : x₂.avlGetHeight < x₁.avlGetHeight) :
    (join d a k h (join d b j i x₁ x₂) y).rotateTall d =
      .ok (fixed d b j x₁ (fixed d a k x₂ y)) := by
  unfold rotateTall
  simp only [child_join, child_flip_join, if_pos hlt, avlRotate_join]

theorem rotateTall_double
    (hle : x₁.avlGetHeight ≤ (join d c l g z₁ z₂).avlGetHeight) :
    (join d a k h (join d b j i x₁ (join d c l g z₁ z₂)) y).rotateTall d =
      .ok (fixed d c l (fixed d b j x₁ z₁) (fixed d a k z₂ y)) := by
  have hx : (join d b j i x₁ (join d c l g z₁ z₂)).avlRotate d.flip =
      .ok (fixed d c l (fixed d b j x₁ z₁) z₂) := by
    rw [← join_flip (d := d) (x := join d c l g z₁ z₂), ← join_flip (d := d) (x := z₂),
      avlRotate_join, fixed_flip, fixed_flip]
  unfold rotateTall
  simp only [child_join, child_flip_join, if_neg (not_lt.mpr hle), hx, setChild_join]
  unfold fixed
  rw [avlRotate_join]
  rfl

/-! ## Contents and heights -/

/-- The events of a tree in order. -/
def inorder : AvlTree E → List E
  | .empty => []
  | .node _ k _ l r => inorder l ++ k :: inorder r

/-- The nodes of a tree. -/
def nodes : AvlTree E → Multiset Nat
  | .empty => 0
  | .node a _ _ l r => a ::ₘ (nodes l + nodes r)

/-- `avlSanityCheck`. -/
def avlSanityCheck : AvlTree E → Prop
  | .empty => True
  | .node _ _ h l r => avlSanityCheck l ∧ avlSanityCheck r ∧
      h = 1 + max l.avlGetHeight r.avlGetHeight

theorem avlSanityCheck_join : (join d a k h x y).avlSanityCheck ↔
    x.avlSanityCheck ∧ y.avlSanityCheck ∧ h = 1 + max x.avlGetHeight y.avlGetHeight := by
  cases d
  · rfl
  · simp only [join, avlSanityCheck, max_comm]
    tauto

@[simp] theorem avlSanityCheck_fixed :
    (fixed d a k x y).avlSanityCheck ↔ x.avlSanityCheck ∧ y.avlSanityCheck := by
  unfold fixed
  rw [avlSanityCheck_join]
  exact ⟨fun hs => ⟨hs.1, hs.2.1⟩, fun hs => ⟨hs.1, hs.2, rfl⟩⟩

/-- A tree with right heights is not empty when its height is positive. -/
theorem ne_empty_of_height {t : AvlTree E} (ht : 0 < t.avlGetHeight) : t ≠ .empty := by
  rintro rfl
  exact Nat.lt_irrefl 0 ht

/-! ## What `avlRebalance` can do -/

/-- `avlRebalance` takes the first tree to the second one. -/
inductive Rebalanced : AvlTree E → AvlTree E → Prop
  | empty : Rebalanced .empty .empty
  | fixed {a : Nat} {k : E} {h : Nat} {x y : AvlTree E} :
      x.avlGetHeight ≤ y.avlGetHeight + 1 → y.avlGetHeight ≤ x.avlGetHeight + 1 →
      Rebalanced (.node a k h x y) (fixed .left a k x y)
  | single {d : Side} {a b : Nat} {k j : E} {h : Nat} {x₁ x₂ y : AvlTree E} :
      y.avlGetHeight + 1 < (AvlTree.fixed d b j x₁ x₂).avlGetHeight →
      x₂.avlGetHeight < x₁.avlGetHeight →
      Rebalanced (join d a k h (AvlTree.fixed d b j x₁ x₂) y)
        (AvlTree.fixed d b j x₁ (AvlTree.fixed d a k x₂ y))
  | double {d : Side} {a b c : Nat} {k j l : E} {h : Nat} {x₁ z₁ z₂ y : AvlTree E} :
      y.avlGetHeight + 1 < (AvlTree.fixed d b j x₁ (AvlTree.fixed d c l z₁ z₂)).avlGetHeight →
      x₁.avlGetHeight ≤ (AvlTree.fixed d c l z₁ z₂).avlGetHeight →
      Rebalanced (join d a k h (AvlTree.fixed d b j x₁ (AvlTree.fixed d c l z₁ z₂)) y)
        (AvlTree.fixed d c l (AvlTree.fixed d b j x₁ z₁) (AvlTree.fixed d a k z₂ y))

theorem exists_fixed {t : AvlTree E} (hs : t.avlSanityCheck) (ht : 0 < t.avlGetHeight)
    (d : Side) : ∃ a k x y, t = fixed d a k x y := by
  obtain ⟨a, k, h, x, y, rfl⟩ := exists_join (ne_empty_of_height ht) d
  obtain ⟨-, -, rfl⟩ := avlSanityCheck_join.mp hs
  exact ⟨a, k, x, y, rfl⟩

/-- A too tall child has the grandchild that the rotation needs. -/
theorem rotateTall_ok (hx : x.avlSanityCheck) (ht : (join d a k h x y).tooTall d) :
    ∃ t', (join d a k h x y).rotateTall d = .ok t' ∧ Rebalanced (join d a k h x y) t' := by
  unfold tooTall at ht
  rw [child_join, child_flip_join] at ht
  obtain ⟨b, j, x₁, x₂, rfl⟩ := exists_fixed hx (by omega) d
  by_cases hlt : x₂.avlGetHeight < x₁.avlGetHeight
  · exact ⟨_, rotateTall_single hlt, .single ht hlt⟩
  · have hx₂ : 0 < x₂.avlGetHeight := by
      rw [height_fixed] at ht
      omega
    obtain ⟨c, l, z₁, z₂, rfl⟩ := exists_fixed (avlSanityCheck_fixed.mp hx).2 hx₂ d
    exact ⟨_, rotateTall_double (not_lt.mp hlt), .double ht (not_lt.mp hlt)⟩

/-- `avlRebalance` of a node follows no `NULL` pointer. -/
theorem avlRebalance_ok (hx : x.avlSanityCheck) (hy : y.avlSanityCheck) :
    ∃ t', (AvlTree.node a k h x y).avlRebalance = .ok t' ∧
      Rebalanced (.node a k h x y) t' := by
  have heq : (AvlTree.node a k h x y).avlRebalance =
      if (AvlTree.node a k h x y).tooTall .left then (AvlTree.node a k h x y).rotateTall .left
      else if (AvlTree.node a k h x y).tooTall .right then
        (AvlTree.node a k h x y).rotateTall .right
      else (AvlTree.node a k h x y).avlFixHeight := rfl
  rw [heq]
  split
  next ht => exact rotateTall_ok (d := .left) hx ht
  next hl =>
    split
    next ht => exact rotateTall_ok (d := .right) hy ht
    next hr =>
      exact ⟨_, rfl, .fixed (not_lt.mp hl) (not_lt.mp hr)⟩

theorem exists_rebalanced {t : AvlTree E} (hs : t.avlSanityCheck) :
    ∃ t', t.avlRebalance = .ok t' ∧ Rebalanced t t' := by
  cases t with
  | empty => exact ⟨_, rfl, .empty⟩
  | node a k h l r => exact avlRebalance_ok hs.1 hs.2.1

namespace Rebalanced

variable {t t' : AvlTree E}

theorem inorder_eq (hr : Rebalanced t t') : t'.inorder = t.inorder := by
  cases hr with
  | empty => rfl
  | fixed => rfl
  | @single d => cases d <;> simp [AvlTree.fixed, join, inorder]
  | @double d => cases d <;> simp [AvlTree.fixed, join, inorder]

theorem nodes_eq (hr : Rebalanced t t') : t'.nodes = t.nodes := by
  cases hr with
  | empty => rfl
  | fixed => rfl
  | @single d =>
      cases d <;> simp only [AvlTree.fixed, join, nodes, ← Multiset.singleton_add] <;> ac_rfl
  | @double d =>
      cases d <;> simp only [AvlTree.fixed, join, nodes, ← Multiset.singleton_add] <;> ac_rfl

theorem avlSanityCheck (hr : Rebalanced (.node a k h x y) t') (hx : x.avlSanityCheck)
    (hy : y.avlSanityCheck) : t'.avlSanityCheck := by
  generalize ht : AvlTree.node a k h x y = t at hr
  cases hr with
  | empty => cases ht
  | fixed =>
      cases ht
      exact avlSanityCheck_fixed.mpr ⟨hx, hy⟩
  | @single d =>
      cases d <;> cases ht <;> simp_all only [avlSanityCheck_fixed, and_self]
  | @double d =>
      cases d <;> cases ht <;> simp_all only [avlSanityCheck_fixed, and_self]

theorem of_empty (hr : Rebalanced .empty t') : t' = .empty := by
  generalize ht : AvlTree.empty = t at hr
  cases hr with
  | empty => rfl
  | fixed => cases ht
  | single => exact absurd ht.symm join_ne_empty
  | double => exact absurd ht.symm join_ne_empty

theorem avlSanityCheck_of_checked (hr : Rebalanced t t') (hs : t.avlSanityCheck) :
    t'.avlSanityCheck := by
  cases t with
  | empty =>
      rw [hr.of_empty]
      exact trivial
  | node => exact hr.avlSanityCheck hs.1 hs.2.1

end Rebalanced

end Ross.AvlTree

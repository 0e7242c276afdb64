import Ross.Proofs.AvlIndex

/-!
# The balance of the AVL trees

`avlRebalance` takes the double rotation when the grandchildren are equally
high, which happens after deletions only.  It then leaves a node whose subtrees
differ by two when the inner grandchild is lower on the outer side.  All other
insertions and deletions keep the balance.
-/

namespace Ross

open LinkedTree Transition

namespace AvlTree

variable {E : Type}

/-- The height of a tree. -/
def depth : AvlTree E → Nat
  | .empty => 0
  | .node _ _ _ l r => 1 + max (depth l) (depth r)

/-- At every node the heights of the two subtrees differ by at most 1. -/
def Balanced : AvlTree E → Prop
  | .empty => True
  | .node _ _ _ l r => Balanced l ∧ Balanced r ∧ depth l ≤ depth r + 1 ∧ depth r ≤ depth l + 1

/-- `Balanced` is decided along the tree. -/
def decBalanced : (t : AvlTree E) → Decidable t.Balanced
  | .empty => instDecidableTrue
  | .node _ _ _ l r =>
      have := decBalanced l
      have := decBalanced r
      inferInstanceAs (Decidable (_ ∧ _ ∧ _ ∧ _))

instance (t : AvlTree E) : Decidable t.Balanced := decBalanced t

/-- The same by the height fields. -/
def FieldsBalanced : AvlTree E → Prop
  | .empty => True
  | .node _ _ _ l r => FieldsBalanced l ∧ FieldsBalanced r ∧
      l.avlGetHeight ≤ r.avlGetHeight + 1 ∧ r.avlGetHeight ≤ l.avlGetHeight + 1

theorem avlGetHeight_eq_depth {t : AvlTree E} (hs : t.avlSanityCheck) :
    t.avlGetHeight = t.depth := by
  induction t with
  | empty => rfl
  | node a k h l r ihl ihr =>
      obtain ⟨hl, hr, rfl⟩ := hs
      rw [avlGetHeight, depth, ihl hl, ihr hr]

theorem balanced_iff {t : AvlTree E} (hs : t.avlSanityCheck) :
    t.Balanced ↔ t.FieldsBalanced := by
  induction t with
  | empty => rfl
  | node a k h l r ihl ihr =>
      unfold Balanced FieldsBalanced
      rw [ihl hs.1, ihr hs.2.1, avlGetHeight_eq_depth hs.1, avlGetHeight_eq_depth hs.2.1]

/-! ## Which deletions go wrong -/

/-- The subtrees of the root have different heights. -/
def uneven (t : AvlTree E) : Bool :=
  decide ((t.child .left).avlGetHeight ≠ (t.child .right).avlGetHeight)

/-- A node loses a level when its subtree `x` does, next to `y`. -/
def lowers (x y : AvlTree E) : Bool :=
  decide (y.avlGetHeight < x.avlGetHeight) ||
    decide (x.avlGetHeight < y.avlGetHeight) && y.uneven

/-- The double rotation of the tall `child[d]` takes from its inner child a subtree
two levels lower than the outer child, which it joins. -/
def slips (d : Side) (y : AvlTree E) : Bool :=
  let z := y.child d.flip
  decide ((y.child d).avlGetHeight = z.avlGetHeight) &&
    decide ((z.child d).avlGetHeight < (z.child d.flip).avlGetHeight)

/-- `avlDeleteMin` lowers the tree. -/
def minLowers : AvlTree E → Bool
  | .empty => false
  | .node _ _ _ .empty _ => true
  | .node _ _ _ l r => minLowers l && lowers l r

/-- `avlDeleteMin` rotates a subtree that slips. -/
def minSlips : AvlTree E → Bool
  | .empty => false
  | .node _ _ _ .empty _ => false
  | .node _ _ _ l r => minSlips l ||
      minLowers l && decide (l.avlGetHeight < r.avlGetHeight) && slips .right r

variable {T : Type} [TwStime T]

/-- `avlDelete` lowers the tree. -/
def deleteLowers (key : TwEvent T) : AvlTree (TwEvent T) → Bool
  | .empty => false
  | .node _ k _ l r =>
      match avlCompare key k with
      | none =>
          match r with
          | .empty => true
          | r => minLowers r && lowers r l
      | some .left => deleteLowers key l && lowers l r
      | some .right => deleteLowers key r && lowers r l

/-- `avlDelete` rotates a subtree that slips. -/
def deleteSlips (key : TwEvent T) : AvlTree (TwEvent T) → Bool
  | .empty => false
  | .node _ k _ l r =>
      match avlCompare key k with
      | none =>
          match r with
          | .empty => false
          | r => minSlips r ||
              minLowers r && decide (r.avlGetHeight < l.avlGetHeight) && slips .left l
      | some .left => deleteSlips key l ||
          deleteLowers key l && decide (l.avlGetHeight < r.avlGetHeight) && slips .right r
      | some .right => deleteSlips key r ||
          deleteLowers key r && decide (r.avlGetHeight < l.avlGetHeight) && slips .left l

/-! ## One rebalancing -/

section Rebalancing

variable {d : Side} {a b c : Nat} {k j l : E} {h : Nat} {x x' y t t' x₁ x₂ z₁ z₂ : AvlTree E}

theorem fieldsBalanced_join : (join d a k h x y).FieldsBalanced ↔
    x.FieldsBalanced ∧ y.FieldsBalanced ∧
      x.avlGetHeight ≤ y.avlGetHeight + 1 ∧ y.avlGetHeight ≤ x.avlGetHeight + 1 := by
  cases d
  · rfl
  · show y.FieldsBalanced ∧ x.FieldsBalanced ∧ _ ∧ _ ↔ _
    tauto

@[simp] theorem fieldsBalanced_fixed : (fixed d a k x y).FieldsBalanced ↔
    x.FieldsBalanced ∧ y.FieldsBalanced ∧
      x.avlGetHeight ≤ y.avlGetHeight + 1 ∧ y.avlGetHeight ≤ x.avlGetHeight + 1 :=
  fieldsBalanced_join

@[simp] theorem uneven_fixed : (fixed d a k x y).uneven = true ↔
    x.avlGetHeight ≠ y.avlGetHeight := by
  cases d
  · exact decide_eq_true_iff
  · exact decide_eq_true_iff.trans ne_comm

theorem slips_fixed : (fixed d b j x₁ (fixed d c l z₁ z₂)).slips d = true ↔
    x₁.avlGetHeight = (fixed d c l z₁ z₂).avlGetHeight ∧
      z₁.avlGetHeight < z₂.avlGetHeight := by
  unfold slips
  rw [Bool.and_eq_true, decide_eq_true_iff, decide_eq_true_iff]
  cases d <;> rfl

/-- The same node seen from two sides. -/
theorem join_eq {d d' : Side} {a b h i : Nat} {k j : E} {x y u v : AvlTree E}
    (heq : join d a k h x y = join d' b j i u v) :
    d' = d ∧ x = u ∧ y = v ∨ d' = d.flip ∧ x = v ∧ y = u := by
  cases d <;> cases d' <;> cases heq
  · exact .inl ⟨rfl, rfl, rfl⟩
  · exact .inr ⟨rfl, rfl, rfl⟩
  · exact .inr ⟨rfl, rfl, rfl⟩
  · exact .inl ⟨rfl, rfl, rfl⟩

/-- A subtree that grew is rebalanced. -/
theorem Rebalanced.grow (hr : Rebalanced (join d a k h x' y) t') (hx' : x'.FieldsBalanced)
    (hy : y.FieldsBalanced) (hxy : x.avlGetHeight ≤ y.avlGetHeight + 1)
    (hyx : y.avlGetHeight ≤ x.avlGetHeight + 1)
    (hgrow : x'.avlGetHeight = x.avlGetHeight ∨
      x'.avlGetHeight = x.avlGetHeight + 1 ∧ (x'.avlGetHeight = 1 ∨ x'.uneven = true)) :
    t'.FieldsBalanced ∧ (t'.avlGetHeight = 1 + max x.avlGetHeight y.avlGetHeight ∨
      t'.avlGetHeight = 2 + max x.avlGetHeight y.avlGetHeight ∧ t'.uneven = true) := by
  generalize ht : join d a k h x' y = t at hr
  cases hr with
  | empty => exact absurd ht join_ne_empty
  | @fixed b j i u v huv hvu =>
      rw [fieldsBalanced_fixed, height_fixed, uneven_fixed]
      rcases join_eq (show _ = join .left b j i u v from ht) with ⟨-, rfl, rfl⟩ | ⟨-, rfl, rfl⟩
      · refine ⟨⟨hx', hy, huv, hvu⟩, ?_⟩
        omega
      · refine ⟨⟨hy, hx', huv, hvu⟩, ?_⟩
        omega
  | single htall hlt =>
      rcases join_eq ht with ⟨-, rfl, rfl⟩ | ⟨-, rfl, rfl⟩
      · -- The grown subtree is too tall on its outer side.
        simp only [fieldsBalanced_fixed, height_fixed] at hx' hgrow htall ⊢
        obtain ⟨h₁, h₂, h₃, h₄⟩ := hx'
        refine ⟨⟨h₁, ⟨h₂, hy, ?_, ?_⟩, ?_, ?_⟩, .inl ?_⟩ <;> omega
      · omega
  | double htall hle =>
      rcases join_eq ht with ⟨-, rfl, rfl⟩ | ⟨-, rfl, rfl⟩
      · -- It is uneven, so it is too tall on its inner side.
        simp only [fieldsBalanced_fixed, height_fixed, uneven_fixed] at hx' hgrow htall hle ⊢
        obtain ⟨h₁, ⟨h₂, h₃, h₄, h₅⟩, h₆, h₇⟩ := hx'
        refine ⟨⟨⟨h₁, h₂, ?_, ?_⟩, ⟨h₃, hy, ?_, ?_⟩, ?_, ?_⟩, .inl ?_⟩ <;> omega
      · omega

/-- A node of balanced subtrees is not rotated. -/
theorem Rebalanced.same (hr : Rebalanced (join d a k h x y) t') (hx : x.FieldsBalanced)
    (hy : y.FieldsBalanced) (hxy : x.avlGetHeight ≤ y.avlGetHeight + 1)
    (hyx : y.avlGetHeight ≤ x.avlGetHeight + 1) :
    t'.FieldsBalanced ∧ t'.avlGetHeight = 1 + max x.avlGetHeight y.avlGetHeight := by
  generalize ht : join d a k h x y = t at hr
  cases hr with
  | empty => exact absurd ht join_ne_empty
  | @fixed b j i u v huv hvu =>
      rw [fieldsBalanced_fixed, height_fixed]
      rcases join_eq (show _ = join .left b j i u v from ht) with ⟨-, rfl, rfl⟩ | ⟨-, rfl, rfl⟩
      · exact ⟨⟨hx, hy, huv, hvu⟩, rfl⟩
      · exact ⟨⟨hy, hx, huv, hvu⟩, by rw [max_comm]⟩
  | single htall hlt => rcases join_eq ht with ⟨-, rfl, rfl⟩ | ⟨-, rfl, rfl⟩ <;> omega
  | double htall hle => rcases join_eq ht with ⟨-, rfl, rfl⟩ | ⟨-, rfl, rfl⟩ <;> omega

/-- A balanced tree with right heights stays as it is. -/
theorem Rebalanced.checked_same (hr : Rebalanced t t') (hb : t.FieldsBalanced)
    (hs : t.avlSanityCheck) : t'.FieldsBalanced ∧ t'.avlGetHeight = t.avlGetHeight := by
  cases t with
  | empty =>
      rw [hr.of_empty]
      exact ⟨trivial, rfl⟩
  | node b k h x y =>
      obtain ⟨hx, hy, hxy, hyx⟩ := hb
      obtain ⟨-, -, rfl⟩ := hs
      exact Rebalanced.same (d := .left) hr hx hy hxy hyx

theorem lowers_iff : lowers x y = true ↔ y.avlGetHeight < x.avlGetHeight ∨
    x.avlGetHeight < y.avlGetHeight ∧ y.uneven = true := by
  unfold lowers
  rw [Bool.or_eq_true, Bool.and_eq_true, decide_eq_true_iff, decide_eq_true_iff]

/-- A node one of whose subtrees lost a level is balanced again, unless the other
one slips. -/
theorem Rebalanced.lowered (hr : Rebalanced (join d a k h x' y) t') (hx' : x'.FieldsBalanced)
    (hy : y.FieldsBalanced) (hxy : x.avlGetHeight ≤ y.avlGetHeight + 1)
    (hyx : y.avlGetHeight ≤ x.avlGetHeight + 1)
    (hlow : x'.avlGetHeight + 1 = x.avlGetHeight)
    (hslip : x.avlGetHeight < y.avlGetHeight → slips d.flip y ≠ true) :
    t'.FieldsBalanced ∧
      t'.avlGetHeight + (lowers x y).toNat = 1 + max x.avlGetHeight y.avlGetHeight := by
  have hnat : (lowers x y).toNat = 1 ∧ lowers x y = true ∨
      (lowers x y).toNat = 0 ∧ ¬ lowers x y = true := by
    cases lowers x y
    · exact .inr ⟨rfl, Bool.false_ne_true⟩
    · exact .inl ⟨rfl, rfl⟩
  rw [lowers_iff] at hnat
  generalize ht : join d a k h x' y = t at hr
  cases hr with
  | empty => exact absurd ht join_ne_empty
  | @fixed b j i u v huv hvu =>
      rw [fieldsBalanced_fixed, height_fixed]
      rcases join_eq (show _ = join .left b j i u v from ht) with ⟨-, rfl, rfl⟩ | ⟨-, rfl, rfl⟩
      · exact ⟨⟨hx', hy, huv, hvu⟩, by omega⟩
      · exact ⟨⟨hy, hx', huv, hvu⟩, by omega⟩
  | single htall hlt =>
      rcases join_eq ht with ⟨-, rfl, rfl⟩ | ⟨-, rfl, rfl⟩
      · omega
      · simp only [fieldsBalanced_fixed, height_fixed, uneven_fixed] at *
        obtain ⟨h₁, h₂, h₃, h₄⟩ := hy
        refine ⟨⟨h₁, ⟨h₂, hx', ?_, ?_⟩, ?_, ?_⟩, ?_⟩ <;> omega
  | double htall hle =>
      rcases join_eq ht with ⟨-, rfl, rfl⟩ | ⟨hd, rfl, rfl⟩
      · omega
      · -- The grandchildren may be equally high: the inner one then has to be high
        -- on the outer side.
        subst hd
        rw [ne_eq, slips_fixed] at hslip
        simp only [fieldsBalanced_fixed, height_fixed, uneven_fixed] at *
        obtain ⟨h₁, ⟨h₂, h₃, h₄, h₅⟩, h₆, h₇⟩ := hy
        refine ⟨⟨⟨h₁, h₂, ?_, ?_⟩, ⟨h₃, hx', ?_, ?_⟩, ?_, ?_⟩, ?_⟩ <;> omega

/-- The two cases of a deletion in the subtree `x`. -/
theorem Rebalanced.shrink {low : Bool} (hr : Rebalanced (join d a k h x' y) t')
    (hx' : x'.FieldsBalanced) (hy : y.FieldsBalanced)
    (hxy : x.avlGetHeight ≤ y.avlGetHeight + 1) (hyx : y.avlGetHeight ≤ x.avlGetHeight + 1)
    (hlow : x'.avlGetHeight + low.toNat = x.avlGetHeight)
    (hslip : (low && decide (x.avlGetHeight < y.avlGetHeight) && slips d.flip y) = false) :
    t'.FieldsBalanced ∧
      t'.avlGetHeight + (low && lowers x y).toNat = 1 + max x.avlGetHeight y.avlGetHeight := by
  cases low with
  | false =>
      have hx : x'.avlGetHeight = x.avlGetHeight := hlow
      have hsame := hr.same hx' hy (hx ▸ hxy) (hx ▸ hyx)
      rw [hx] at hsame
      exact hsame
  | true =>
      refine hr.lowered hx' hy hxy hyx hlow fun hlt hs => ?_
      rw [Bool.true_and, decide_eq_true hlt, Bool.true_and] at hslip
      exact Bool.false_ne_true (hslip.symm.trans hs)

end Rebalancing

/-! ## Insertion and deletion -/

variable {e f : TwEvent T} {a : Nat} {t t' : AvlTree (TwEvent T)}

/-- An insertion keeps the balance; a tree that gets higher is uneven then. -/
theorem Inserted.balanced (hi : Inserted e a t t') (hb : t.FieldsBalanced)
    (hs : t.avlSanityCheck) : t'.FieldsBalanced ∧ (t'.avlGetHeight = t.avlGetHeight ∨
      t'.avlGetHeight = t.avlGetHeight + 1 ∧ (t'.avlGetHeight = 1 ∨ t'.uneven = true)) := by
  induction hi with
  | leaf => exact ⟨⟨trivial, trivial, Nat.zero_le _, Nat.zero_le _⟩, .inr ⟨rfl, .inl rfl⟩⟩
  | left _ _ hreb ih =>
      obtain ⟨hl, hr, hlr, hrl⟩ := hb
      obtain ⟨hsl, -, rfl⟩ := hs
      obtain ⟨hb', hgrow⟩ := ih hl hsl
      obtain ⟨hbal, hheight⟩ := Rebalanced.grow (d := .left) hreb hb' hr hlr hrl hgrow
      rw [avlGetHeight]
      refine ⟨hbal, hheight.imp_right fun hh => ⟨?_, .inr hh.2⟩⟩
      omega
  | right _ _ hreb ih =>
      obtain ⟨hl, hr, hlr, hrl⟩ := hb
      obtain ⟨-, hsr, rfl⟩ := hs
      obtain ⟨hb', hgrow⟩ := ih hr hsr
      obtain ⟨hbal, hheight⟩ := Rebalanced.grow (d := .right) hreb hb' hl hrl hlr hgrow
      rw [avlGetHeight, max_comm]
      refine ⟨hbal, hheight.imp_right fun hh => ⟨?_, .inr hh.2⟩⟩
      omega

omit [TwStime T] in
/-- Taking out the least event keeps the balance unless a subtree slips. -/
theorem DeletedMin.balanced (hd : DeletedMin e a t t') (hb : t.FieldsBalanced)
    (hs : t.avlSanityCheck) (hslip : t.minSlips = false) : t'.FieldsBalanced ∧
      t'.avlGetHeight + t.minLowers.toNat = t.avlGetHeight := by
  induction hd with
  | @root h r t' hreb =>
      obtain ⟨-, hr, -, hrl⟩ := hb
      obtain ⟨-, hsr, rfl⟩ := hs
      obtain ⟨hbal, hheight⟩ := hreb.checked_same hr hsr
      refine ⟨hbal, ?_⟩
      rw [hheight]
      show r.avlGetHeight + 1 = 1 + max 0 r.avlGetHeight
      omega
  | @left b h k l l' r t' hne _ hreb ih =>
      obtain ⟨hl, hr, hlr, hrl⟩ := hb
      obtain ⟨hsl, -, rfl⟩ := hs
      have hlow : (AvlTree.node b k (1 + max l.avlGetHeight r.avlGetHeight) l r).minLowers =
          (l.minLowers && lowers l r) := by
        cases l with
        | empty => exact absurd rfl hne
        | node => rfl
      have hslips : (l.minSlips || l.minLowers && decide (l.avlGetHeight < r.avlGetHeight) &&
          slips .right r) = false := by
        cases l with
        | empty => exact absurd rfl hne
        | node => exact hslip
      rw [Bool.or_eq_false_iff] at hslips
      obtain ⟨hb', hheight⟩ := ih hl hsl hslips.1
      rw [hlow]
      exact Rebalanced.shrink (d := .left) hreb hb' hr hlr hrl hheight hslips.2

/-- A deletion keeps the balance unless a subtree slips. -/
theorem Deleted.balanced (hd : Deleted e f a t t') (hb : t.FieldsBalanced)
    (hs : t.avlSanityCheck) (hslip : t.deleteSlips e = false) : t'.FieldsBalanced ∧
      t'.avlGetHeight + (t.deleteLowers e).toNat = t.avlGetHeight := by
  induction hd with
  | @splice h l t' hk hreb =>
      obtain ⟨hl, -, hlr, -⟩ := hb
      obtain ⟨hsl, -, rfl⟩ := hs
      obtain ⟨hbal, hheight⟩ := hreb.checked_same hl hsl
      refine ⟨hbal, ?_⟩
      rw [hheight]
      unfold deleteLowers
      rw [avlCompare_none hk]
      show l.avlGetHeight + 1 = 1 + max l.avlGetHeight 0
      omega
  | @root b h k l r r' t' hk hne hmin hreb =>
      obtain ⟨hl, hr, hlr, hrl⟩ := hb
      obtain ⟨-, hsr, rfl⟩ := hs
      have hlow : (AvlTree.node b f (1 + max l.avlGetHeight r.avlGetHeight) l r).deleteLowers e =
          (r.minLowers && lowers r l) := by
        cases r with
        | empty => exact absurd rfl hne
        | node => simp only [deleteLowers, avlCompare_none hk]
      have hslips : (r.minSlips || r.minLowers && decide (r.avlGetHeight < l.avlGetHeight) &&
          slips .left l) = false := by
        cases r with
        | empty => exact absurd rfl hne
        | node =>
            simp only [deleteSlips, avlCompare_none hk] at hslip
            exact hslip
      rw [Bool.or_eq_false_iff] at hslips
      obtain ⟨hb', hheight⟩ := hmin.balanced hr hsr hslips.1
      rw [hlow, avlGetHeight, max_comm]
      exact Rebalanced.shrink (d := .right) hreb hb' hl hrl hlr hheight hslips.2
  | @left b h k l l' r t' hlt _ hreb ih =>
      obtain ⟨hl, hr, hlr, hrl⟩ := hb
      obtain ⟨hsl, -, rfl⟩ := hs
      simp only [deleteSlips, avlCompare_left hlt, Bool.or_eq_false_iff] at hslip
      obtain ⟨hb', hheight⟩ := ih hl hsl hslip.1
      simp only [deleteLowers, avlCompare_left hlt]
      exact Rebalanced.shrink (d := .left) hreb hb' hr hlr hrl hheight hslip.2
  | @right b h k l r r' t' hlt _ hreb ih =>
      obtain ⟨hl, hr, hlr, hrl⟩ := hb
      obtain ⟨-, hsr, rfl⟩ := hs
      simp only [deleteSlips, avlCompare_right hlt, Bool.or_eq_false_iff] at hslip
      obtain ⟨hb', hheight⟩ := ih hr hsr hslip.1
      simp only [deleteLowers, avlCompare_right hlt]
      rw [avlGetHeight, max_comm]
      exact Rebalanced.shrink (d := .right) hreb hb' hl hrl hlr hheight hslip.2

end AvlTree

/-! ## Runs -/

namespace AvlIndex

open AvlTree

variable {T : Type} [TwStime T] {nkp : Nat} {kpOf : Nat → Fin nkp} {s : AvlIndex T nkp}
  {avlSize : Nat}

/-- The call does not delete an event from a tree with a subtree that slips. -/
def Steady (kpOf : Nat → Fin nkp) (s : AvlIndex T nkp) : IndexOp T → Prop
  | .insert _ => True
  | .remove e => (s.treeOf kpOf e).deleteSlips e = false

/-- The states of the index after admissible calls none of which rotates a subtree
that slips. -/
def SteadyRun (kpOf : Nat → Fin nkp) (avlSize : Nat) : AvlIndex T nkp → Prop :=
  ReachableVia (· = create avlSize) (fun a op b => a.call kpOf op = .ok b)
    fun a op => a.Admissible kpOf op ∧ a.Steady kpOf op

/-- A call that does not rotate a subtree that slips keeps the trees balanced. -/
theorem call_balanced {s' : AvlIndex T nkp} {op : IndexOp T} (h : Wellformed avlSize s)
    (hb : ∀ k, (s.avlTree k).FieldsBalanced) (ha : s.Admissible kpOf op)
    (hst : s.Steady kpOf op) (hs : s.call kpOf op = .ok s') :
    ∀ k, (s'.avlTree k).FieldsBalanced := by
  obtain ⟨tree, list⟩ := s
  cases op with
  | insert e =>
      obtain ⟨hsort, hsan⟩ := h.tree (kpOf e.destLp)
      match list, h with
      | [], h => exact absurd rfl h.free
      | [_], h =>
          rw [call, twHashInsert, avlInsert_outOfMemory rfl] at hs
          cases hs
      | a :: next :: free, h =>
          obtain ⟨t', hins, hi, -⟩ := avlInsert_ok a next free hsan hsort ha
          rw [call, twHashInsert, hins] at hs
          cases hs
          exact forall_update hb (hi.balanced (hb _) hsan).1
  | remove e =>
      obtain ⟨hsort, hsan⟩ := h.tree (kpOf e.destLp)
      obtain ⟨f, hf, hk⟩ := ha
      obtain ⟨a, t', hdel, hd, -⟩ := avlDelete_ok list hsan hsort hf hk
      rw [call, twHashRemove, hdel] at hs
      cases hs
      exact forall_update hb (hd.balanced (hb _) hsan hst).1

/-- In every run whose deletions rotate no subtree that slips, the heights of the
two subtrees of every node differ by at most 1. -/
theorem balanced_of_steady (hs : SteadyRun kpOf avlSize s) : ∀ k, (s.avlTree k).Balanced := by
  have hinv : Wellformed avlSize s ∧ ∀ k, (s.avlTree k).FieldsBalanced := by
    refine hs.invariant (P := fun s => Wellformed avlSize s ∧ ∀ k, (s.avlTree k).FieldsBalanced)
      (fun s h => ?_) fun s op s' h hok hst => ?_
    · subst h
      exact ⟨create_wellformed avlSize, fun _ => trivial⟩
    · exact ⟨wellformed_call h.1 hok.1 hst, call_balanced h.1 h.2 hok.1 hok.2 hst⟩
  exact fun k => (balanced_iff (hinv.1.tree k).2).mpr (hinv.2 k)

instance (s : AvlIndex T nkp) (op : IndexOp T) : Decidable (s.Steady kpOf op) :=
  match op with
  | .insert _ => inferInstanceAs (Decidable True)
  | .remove e => inferInstanceAs (Decidable ((s.treeOf kpOf e).deleteSlips e = false))

theorem balanced_of_steady_run :
    ∃ s : AvlIndex Int 1, SteadyRun (fun _ => 0) 4 s ∧ (s.avlTree 0).inorder.length = 8 ∧
      ∀ k, (s.avlTree k).Balanced := by
  have hrun : ∃ s : AvlIndex Int 1, SteadyRun (fun _ => 0) 4 s ∧
      decide ((s.avlTree 0).inorder.length = 8) = true :=
    ReachableVia.exists_of_runList
      (fun a op => decide (a.Admissible (fun _ => 0) op ∧ a.Steady (fun _ => 0) op)) _
      (([10, 5, 15, 3, 7, 20, 2, 6, 8].map fun t => .insert (keyed t)) ++ [.remove (keyed 20)])
      (fun _ _ h => of_decide_eq_true h) (.start rfl) (by decide +kernel)
  obtain ⟨s, hs, ht⟩ := hrun
  exact ⟨s, hs, of_decide_eq_true ht, balanced_of_steady hs⟩

/-- Eight insertions and one deletion after which the subtrees of a node differ by
two: its outer subtree and the one taken from the inner grandchild. -/
theorem deletion_unbalances :
    ∃ s : AvlIndex Int 1, AdmissibleRun (fun _ => 0) 4 s ∧ ¬ (s.avlTree 0).Balanced := by
  have hrun : ∃ s : AvlIndex Int 1, AdmissibleRun (fun _ => 0) 4 s ∧
      decide (¬ (s.avlTree 0).Balanced) = true :=
    ReachableVia.exists_of_runList (fun a op => decide (a.Admissible (fun _ => 0) op)) _
      (([10, 5, 15, 3, 7, 20, 2, 8].map fun t => .insert (keyed t)) ++ [.remove (keyed 20)])
      (fun _ _ h => of_decide_eq_true h) (.start rfl) (by decide +kernel)
  obtain ⟨s, hs, ht⟩ := hrun
  exact ⟨s, hs, of_decide_eq_true ht⟩

end AvlIndex

end Ross

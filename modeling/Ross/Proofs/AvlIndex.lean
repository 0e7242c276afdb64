import Ross.Proofs.AvlRotate
import Ross.Lib.Transition
import Mathlib.Algebra.BigOperators.Group.Finset.Basic
import Mathlib.Data.Fintype.Basic
import Mathlib.Algebra.Order.BigOperators.Group.Multiset

/-!
# The AVL trees as a map

Whatever events are inserted and deleted, the trees of the KPs stay search trees
with right heights, a deletion returns the event stored under the key of its
argument, and no node is lost.
-/

namespace Ross

open LinkedTree Transition

variable {T : Type} [TwStime T]

/-! ## The order -/

/-- The key of `avlSearch`, `avlInsert` and `avlDelete`. -/
def avlKey (e : TwEvent T) : T ×ₗ T ×ₗ Nat ×ₗ Nat :=
  toLex (e.sig.recvTs, toLex (firstTiebreaker e, toLex (e.eventId, e.sendPe)))

theorem avlKey_lt {x y : TwEvent T} : avlKey x < avlKey y ↔
    x.sig.recvTs < y.sig.recvTs ∨ x.sig.recvTs = y.sig.recvTs ∧
      (firstTiebreaker x < firstTiebreaker y ∨ firstTiebreaker x = firstTiebreaker y ∧
        (x.eventId < y.eventId ∨ x.eventId = y.eventId ∧ x.sendPe < y.sendPe)) := by
  simp only [avlKey, Prod.Lex.toLex_lt_toLex]

/-- The comparison of the code is the lexicographic order of the keys. -/
theorem avlCompare_eq (key node : TwEvent T) : avlCompare key node =
    if avlKey key < avlKey node then some .left
    else if avlKey node < avlKey key then some .right else none := by
  unfold avlCompare sideOf
  rcases twStimeCmp_cases key.sig.recvTs node.sig.recvTs with
    ⟨hlt, hc⟩ | ⟨heq, hc⟩ | ⟨hlt, hc⟩ <;> rw [hc]
  · rw [if_pos (avlKey_lt.mpr (.inl hlt))]
    rfl
  · rw [if_pos rfl]
    simp only [avlKey_lt, heq, lt_irrefl, true_and, false_or]
    rcases lt_trichotomy (firstTiebreaker key) (firstTiebreaker node) with ht | ht | ht
    · simp [ht, ht.ne, ht.not_gt]
    · simp only [ht, lt_irrefl, true_and, false_or, if_true]
      rcases lt_trichotomy key.eventId node.eventId with hi | hi | hi
      · simp [hi, hi.ne, hi.not_gt]
      · simp only [hi, lt_irrefl, true_and, false_or, if_true]
        rcases lt_trichotomy key.sendPe node.sendPe with hp | hp | hp
        · simp [hp, hp.ne, hp.not_gt]
        · simp [hp]
        · simp [hp, hp.ne', hp.not_gt]
      · simp [hi, hi.ne', hi.not_gt]
    · simp [ht, ht.ne', ht.not_gt]
  · have hn : ¬ avlKey key < avlKey node := (avlKey_lt.mpr (.inl hlt)).not_gt
    rw [if_neg hn, if_pos (avlKey_lt.mpr (.inl hlt))]
    rfl

theorem avlCompare_left {key node : TwEvent T} (h : avlKey key < avlKey node) :
    avlCompare key node = some .left := by rw [avlCompare_eq, if_pos h]

theorem avlCompare_right {key node : TwEvent T} (h : avlKey node < avlKey key) :
    avlCompare key node = some .right := by rw [avlCompare_eq, if_neg h.not_gt, if_pos h]

theorem avlCompare_none {key node : TwEvent T} (h : avlKey key = avlKey node) :
    avlCompare key node = none := by
  rw [avlCompare_eq, if_neg h.not_lt, if_neg h.symm.not_lt]

/-- The events of a list are in ascending order of their keys. -/
def AvlSorted (l : List (TwEvent T)) : Prop := l.Pairwise fun a b => avlKey a < avlKey b

namespace AvlTree

variable {e k f : TwEvent T} {a b h : Nat} {free : List Nat} {l r t t' l' r' : AvlTree (TwEvent T)}

/-! ## What the three operations can do -/

/-- `avlInsert` of `e` into the node `a` takes the first tree to the second one. -/
inductive Inserted (e : TwEvent T) (a : Nat) : AvlTree (TwEvent T) → AvlTree (TwEvent T) → Prop
  | leaf : Inserted e a .empty (.node a e 1 .empty .empty)
  | left {b h : Nat} {k : TwEvent T} {l l' r t' : AvlTree (TwEvent T)} :
      avlKey e < avlKey k → Inserted e a l l' → Rebalanced (.node b k h l' r) t' →
      Inserted e a (.node b k h l r) t'
  | right {b h : Nat} {k : TwEvent T} {l r r' t' : AvlTree (TwEvent T)} :
      avlKey k < avlKey e → Inserted e a r r' → Rebalanced (.node b k h l r') t' →
      Inserted e a (.node b k h l r) t'

/-- `avlDeleteMin` takes the event `e` and the node `a` out of a tree. -/
inductive DeletedMin (e : TwEvent T) (a : Nat) : AvlTree (TwEvent T) → AvlTree (TwEvent T) → Prop
  | root {h : Nat} {r t' : AvlTree (TwEvent T)} :
      Rebalanced r t' → DeletedMin e a (.node a e h .empty r) t'
  | left {b h : Nat} {k : TwEvent T} {l l' r t' : AvlTree (TwEvent T)} :
      l ≠ .empty → DeletedMin e a l l' → Rebalanced (.node b k h l' r) t' →
      DeletedMin e a (.node b k h l r) t'

/-- `avlDelete` of the key of `e` takes the event `f` and the node `a` out of a
tree. -/
inductive Deleted (e f : TwEvent T) (a : Nat) : AvlTree (TwEvent T) → AvlTree (TwEvent T) → Prop
  | splice {h : Nat} {l t' : AvlTree (TwEvent T)} :
      avlKey e = avlKey f → Rebalanced l t' → Deleted e f a (.node a f h l .empty) t'
  | root {b h : Nat} {k : TwEvent T} {l r r' t' : AvlTree (TwEvent T)} :
      avlKey e = avlKey f → r ≠ .empty → DeletedMin k a r r' →
      Rebalanced (.node b k h l r') t' → Deleted e f a (.node b f h l r) t'
  | left {b h : Nat} {k : TwEvent T} {l l' r t' : AvlTree (TwEvent T)} :
      avlKey e < avlKey k → Deleted e f a l l' → Rebalanced (.node b k h l' r) t' →
      Deleted e f a (.node b k h l r) t'
  | right {b h : Nat} {k : TwEvent T} {l r r' t' : AvlTree (TwEvent T)} :
      avlKey k < avlKey e → Deleted e f a r r' → Rebalanced (.node b k h l r') t' →
      Deleted e f a (.node b k h l r) t'

/-! ## Search trees -/

theorem sorted_node : AvlSorted (AvlTree.node a k h l r).inorder ↔
    AvlSorted l.inorder ∧ AvlSorted r.inorder ∧ (∀ x ∈ l.inorder, avlKey x < avlKey k) ∧
      ∀ x ∈ r.inorder, avlKey k < avlKey x := by
  unfold AvlSorted
  rw [inorder, List.pairwise_append, List.pairwise_cons]
  constructor
  · rintro ⟨hl, ⟨hk, hr⟩, hlr⟩
    exact ⟨hl, hr, fun x hx => hlr x hx k List.mem_cons_self, hk⟩
  · rintro ⟨hl, hr, hlk, hk⟩
    refine ⟨hl, ⟨hk, hr⟩, fun x hx y hy => ?_⟩
    rcases List.mem_cons.mp hy with rfl | hy
    · exact hlk x hx
    · exact (hlk x hx).trans (hk y hy)

/-- The event `e` has its place between those of `l₁` and those of `l₂`. -/
structure Between (e : TwEvent T) (l₁ l₂ : List (TwEvent T)) : Prop where
  below : ∀ x ∈ l₁, avlKey x < avlKey e
  above : ∀ x ∈ l₂, avlKey e < avlKey x

/-! ### Insertion -/

/-- `avlInsert` of a new key into a search tree with right heights. -/
theorem avlInsert_ok (a next : Nat) (free : List Nat) (hs : t.avlSanityCheck)
    (ho : AvlSorted t.inorder)
    (hnew : ∀ x ∈ t.inorder, avlKey x ≠ avlKey e) :
    ∃ t', t.avlInsert e (a :: next :: free) = .ok (next :: free, t') ∧ Inserted e a t t' ∧
      t'.avlSanityCheck := by
  induction t with
  | empty => exact ⟨_, rfl, .leaf, trivial, trivial, rfl⟩
  | node b k h l r ihl ihr =>
      obtain ⟨hl, hr, hlk, hkr⟩ := sorted_node.mp ho
      have hk : avlKey k ≠ avlKey e := hnew k (by simp [inorder])
      rcases lt_or_gt_of_ne hk with hlt | hgt
      · obtain ⟨r', hi, hins, hsr⟩ := ihr hs.2.1 hr fun x hx => hnew x (by simp [inorder, hx])
        obtain ⟨t', ht, hreb⟩ := avlRebalance_ok (a := b) (k := k) (h := h) hs.1 hsr
        refine ⟨t', ?_, .right hlt hins hreb, hreb.avlSanityCheck hs.1 hsr⟩
        simp only [avlInsert, avlCompare_right hlt, Option.getD_some, hi, ht, Except.map]
      · obtain ⟨l', hi, hins, hsl⟩ := ihl hs.1 hl fun x hx => hnew x (by simp [inorder, hx])
        obtain ⟨t', ht, hreb⟩ := avlRebalance_ok (a := b) (k := k) (h := h) hsl hs.2.1
        refine ⟨t', ?_, .left hgt hins hreb, hreb.avlSanityCheck hsl hs.2.1⟩
        simp only [avlInsert, avlCompare_left hgt, Option.getD_some, hi, ht, Except.map]

/-- Without a second free node `avlInsert` stops. -/
theorem avlInsert_outOfMemory {err : AvlError} (ha : avlAlloc free = .error err) :
    t.avlInsert e free = .error err := by
  induction t with
  | empty => simp only [avlInsert, ha]
  | node b k h l r ihl ihr =>
      unfold avlInsert
      split
      · rw [ihl]
      · rw [ihr]

theorem Inserted.inorder (hi : Inserted e a t t') (ho : AvlSorted t.inorder) :
    ∃ l₁ l₂, t.inorder = l₁ ++ l₂ ∧ t'.inorder = l₁ ++ e :: l₂ ∧ Between e l₁ l₂ := by
  induction hi with
  | leaf => exact ⟨[], [], rfl, rfl, nofun, nofun⟩
  | @left b h k l l' r t' hlt _ hreb ih =>
      obtain ⟨hl, hr, hlk, hkr⟩ := sorted_node.mp ho
      obtain ⟨l₁, l₂, ht, ht', hbet⟩ := ih hl
      refine ⟨l₁, l₂ ++ k :: r.inorder, ?_, ?_, hbet.below, fun x hx => ?_⟩
      · rw [AvlTree.inorder, ht, List.append_assoc]
      · rw [hreb.inorder_eq, AvlTree.inorder, ht', List.append_assoc, List.cons_append]
      · rcases List.mem_append.mp hx with hx | hx
        · exact hbet.above x hx
        · rcases List.mem_cons.mp hx with rfl | hx
          · exact hlt
          · exact hlt.trans (hkr x hx)
  | @right b h k l r r' t' hlt _ hreb ih =>
      obtain ⟨hl, hr, hlk, hkr⟩ := sorted_node.mp ho
      obtain ⟨l₁, l₂, ht, ht', hbet⟩ := ih hr
      refine ⟨l.inorder ++ k :: l₁, l₂, ?_, ?_, fun x hx => ?_, hbet.above⟩
      · rw [AvlTree.inorder, ht, List.append_assoc, List.cons_append]
      · rw [hreb.inorder_eq, AvlTree.inorder, ht', List.append_assoc, List.cons_append]
      · rcases List.mem_append.mp hx with hx | hx
        · exact (hlk x hx).trans hlt
        · rcases List.mem_cons.mp hx with rfl | hx
          · exact hlt
          · exact hbet.below x hx

theorem Inserted.nodes (hi : Inserted e a t t') : t'.nodes = a ::ₘ t.nodes := by
  induction hi with
  | leaf => rfl
  | left _ _ hreb ih =>
      rw [hreb.nodes_eq, AvlTree.nodes, ih, AvlTree.nodes, Multiset.cons_add, Multiset.cons_swap]
  | right _ _ hreb ih =>
      rw [hreb.nodes_eq, AvlTree.nodes, ih, AvlTree.nodes, Multiset.add_cons, Multiset.cons_swap]

/-! ### Deletion -/

theorem avlDeleteMin_ok (free : List Nat) (hs : t.avlSanityCheck) (hne : t ≠ .empty) :
    ∃ e a t', t.avlDeleteMin free = .ok (e, a :: free, t') ∧ DeletedMin e a t t' ∧
      t'.avlSanityCheck := by
  induction t with
  | empty => exact absurd rfl hne
  | node b k h l r ihl _ =>
      by_cases hl : l = .empty
      · subst hl
        obtain ⟨t', ht, hreb⟩ := exists_rebalanced hs.2.1
        refine ⟨k, b, t', ?_, .root hreb, hreb.avlSanityCheck_of_checked hs.2.1⟩
        simp only [avlDeleteMin, ht, Except.map, avlFree]
      · obtain ⟨e, a, l', hd, hdel, hsl⟩ := ihl hs.1 hl
        obtain ⟨t', ht, hreb⟩ := avlRebalance_ok (a := b) (k := k) (h := h) hsl hs.2.1
        refine ⟨e, a, t', ?_, .left hl hdel hreb, hreb.avlSanityCheck hsl hs.2.1⟩
        cases l with
        | empty => exact absurd rfl hl
        | node => simp only [avlDeleteMin, hd, ht, Except.map]

section

omit [TwStime T]

theorem DeletedMin.inorder (hd : DeletedMin e a t t') : t.inorder = e :: t'.inorder := by
  induction hd with
  | root hreb => rw [hreb.inorder_eq, AvlTree.inorder, AvlTree.inorder, List.nil_append]
  | left _ _ hreb ih =>
      rw [hreb.inorder_eq, AvlTree.inorder, ih, AvlTree.inorder, List.cons_append]

theorem DeletedMin.nodes (hd : DeletedMin e a t t') : t.nodes = a ::ₘ t'.nodes := by
  induction hd with
  | root hreb => rw [hreb.nodes_eq, AvlTree.nodes, AvlTree.nodes, zero_add]
  | left _ _ hreb ih =>
      rw [hreb.nodes_eq, AvlTree.nodes, ih, AvlTree.nodes, Multiset.cons_add, Multiset.cons_swap]

end

/-- `avlDelete` of a key present in a search tree with right heights. -/
theorem avlDelete_ok (free : List Nat) (hs : t.avlSanityCheck) (ho : AvlSorted t.inorder)
    {f : TwEvent T}
    (hf : f ∈ t.inorder) (hk : avlKey f = avlKey e) :
    ∃ a t', t.avlDelete e free = .ok (f, a :: free, t') ∧ Deleted e f a t t' ∧
      t'.avlSanityCheck := by
  induction t with
  | empty => exact absurd hf List.not_mem_nil
  | node b k h l r ihl ihr =>
      obtain ⟨hl, hr, hlk, hkr⟩ := sorted_node.mp ho
      rw [inorder, List.mem_append, List.mem_cons] at hf
      rcases hf with hf | rfl | hf
      · obtain ⟨a, l', hd, hdel, hsl⟩ := ihl hs.1 hl hf
        have hlt : avlKey e < avlKey k := hk ▸ hlk f hf
        obtain ⟨t', ht, hreb⟩ := avlRebalance_ok (a := b) (k := k) (h := h) hsl hs.2.1
        refine ⟨a, t', ?_, .left hlt hdel hreb, hreb.avlSanityCheck hsl hs.2.1⟩
        simp only [avlDelete, avlCompare_left hlt, hd, ht, Except.map]
      · by_cases hrne : r = .empty
        · subst hrne
          obtain ⟨t', ht, hreb⟩ := exists_rebalanced hs.1
          refine ⟨b, t', ?_, .splice hk.symm hreb, hreb.avlSanityCheck_of_checked hs.1⟩
          simp only [avlDelete, avlCompare_none hk.symm, ht, Except.map, avlFree]
        · obtain ⟨m, a, r', hd, hdel, hsr⟩ := avlDeleteMin_ok free hs.2.1 hrne
          obtain ⟨t', ht, hreb⟩ := avlRebalance_ok (a := b) (k := m) (h := h) hs.1 hsr
          refine ⟨a, t', ?_, .root hk.symm hrne hdel hreb, hreb.avlSanityCheck hs.1 hsr⟩
          cases r with
          | empty => exact absurd rfl hrne
          | node => simp only [avlDelete, avlCompare_none hk.symm, hd, ht, Except.map]
      · obtain ⟨a, r', hd, hdel, hsr⟩ := ihr hs.2.1 hr hf
        have hlt : avlKey k < avlKey e := hk ▸ hkr f hf
        obtain ⟨t', ht, hreb⟩ := avlRebalance_ok (a := b) (k := k) (h := h) hs.1 hsr
        refine ⟨a, t', ?_, .right hlt hdel hreb, hreb.avlSanityCheck hs.1 hsr⟩
        simp only [avlDelete, avlCompare_right hlt, hd, ht, Except.map]

theorem Deleted.inorder (hd : Deleted e f a t t') :
    ∃ l₁ l₂, t.inorder = l₁ ++ f :: l₂ ∧ t'.inorder = l₁ ++ l₂ := by
  induction hd with
  | @splice h l t' _ hreb =>
      exact ⟨l.inorder, [], rfl, by rw [hreb.inorder_eq, List.append_nil]⟩
  | @root b h k l r r' t' _ _ hmin hreb =>
      exact ⟨l.inorder, r.inorder, rfl, by rw [hreb.inorder_eq, AvlTree.inorder, hmin.inorder]⟩
  | @left b h k l l' r t' _ _ hreb ih =>
      obtain ⟨l₁, l₂, ht, ht'⟩ := ih
      refine ⟨l₁, l₂ ++ k :: r.inorder, ?_, ?_⟩
      · rw [AvlTree.inorder, ht, List.append_assoc, List.cons_append]
      · rw [hreb.inorder_eq, AvlTree.inorder, ht', List.append_assoc]
  | @right b h k l r r' t' _ _ hreb ih =>
      obtain ⟨l₁, l₂, ht, ht'⟩ := ih
      refine ⟨l.inorder ++ k :: l₁, l₂, ?_, ?_⟩
      · rw [AvlTree.inorder, ht, List.append_assoc, List.cons_append]
      · rw [hreb.inorder_eq, AvlTree.inorder, ht', List.append_assoc, List.cons_append]

theorem Deleted.nodes (hd : Deleted e f a t t') : t.nodes = a ::ₘ t'.nodes := by
  induction hd with
  | splice _ hreb => rw [hreb.nodes_eq, AvlTree.nodes, AvlTree.nodes, add_zero]
  | root _ _ hmin hreb =>
      rw [hreb.nodes_eq, AvlTree.nodes, hmin.nodes, AvlTree.nodes, Multiset.add_cons,
        Multiset.cons_swap]
  | left _ _ hreb ih =>
      rw [hreb.nodes_eq, AvlTree.nodes, ih, AvlTree.nodes, Multiset.cons_add, Multiset.cons_swap]
  | right _ _ hreb ih =>
      rw [hreb.nodes_eq, AvlTree.nodes, ih, AvlTree.nodes, Multiset.add_cons, Multiset.cons_swap]

end AvlTree

/-! ## The index of a PE -/

namespace AvlIndex

open AvlTree

variable {nkp : Nat} {kpOf : Nat → Fin nkp} {s s' : AvlIndex T nkp} {e f : TwEvent T}

/-- The tree that an event belongs to. -/
def treeOf (kpOf : Nat → Fin nkp) (s : AvlIndex T nkp) (e : TwEvent T) : AvlTree (TwEvent T) :=
  s.avlTree (kpOf e.destLp)

/-- The key of an event inserted is new, and one removed is present. -/
def Admissible (kpOf : Nat → Fin nkp) (s : AvlIndex T nkp) : IndexOp T → Prop
  | .insert e => ∀ x ∈ (s.treeOf kpOf e).inorder, avlKey x ≠ avlKey e
  | .remove e => ∃ f ∈ (s.treeOf kpOf e).inorder, avlKey f = avlKey e

instance (s : AvlIndex T nkp) (op : IndexOp T) : Decidable (s.Admissible kpOf op) :=
  match op with
  | .insert e => inferInstanceAs (Decidable (∀ x ∈ (s.treeOf kpOf e).inorder, avlKey x ≠ avlKey e))
  | .remove e => inferInstanceAs (Decidable (∃ f ∈ (s.treeOf kpOf e).inorder, avlKey f = avlKey e))

/-- All nodes, in the trees and in the free list. -/
def allNodes (s : AvlIndex T nkp) : Multiset Nat :=
  (∑ k, (s.avlTree k).nodes) + (s.avlListHead : Multiset Nat)

/-- The events of a tree are in order and its heights are right. -/
def SearchTree (t : AvlTree (TwEvent T)) : Prop := AvlSorted t.inorder ∧ t.avlSanityCheck

/-- What holds of the index between two calls. -/
structure Wellformed (avlSize : Nat) (s : AvlIndex T nkp) : Prop where
  tree : ∀ k, SearchTree (s.avlTree k)
  free : s.avlListHead ≠ []
  nodes : s.allNodes = (List.range (2 ^ avlSize) : Multiset Nat)

/-- The events of the tree of `e` change from `l₁ ++ old ++ l₂` to `l₁ ++ new ++ l₂`,
and those of the other KPs stay. -/
def Replaces (kpOf : Nat → Fin nkp) (s s' : AvlIndex T nkp) (e : TwEvent T)
    (old new : List (TwEvent T)) : Prop :=
  (∃ l₁ l₂, (s.treeOf kpOf e).inorder = l₁ ++ old ++ l₂ ∧
    (s'.treeOf kpOf e).inorder = l₁ ++ new ++ l₂) ∧
  ∀ k, k ≠ kpOf e.destLp → s'.avlTree k = s.avlTree k

section

omit [TwStime T]

theorem sum_update (t : Fin nkp → AvlTree (TwEvent T)) (k : Fin nkp) (u : AvlTree (TwEvent T)) :
    (∑ i, (Function.update t k u i).nodes) + (t k).nodes = (∑ i, (t i).nodes) + u.nodes := by
  have hrest : ∑ i ∈ Finset.univ.erase k, (Function.update t k u i).nodes =
      ∑ i ∈ Finset.univ.erase k, (t i).nodes :=
    Finset.sum_congr rfl fun i hi => by rw [Function.update_of_ne (Finset.ne_of_mem_erase hi)]
  have hold := Finset.sum_erase_add _ (fun i => (t i).nodes) (Finset.mem_univ k)
  have hnew := Finset.sum_erase_add _ (fun i => (Function.update t k u i).nodes)
    (Finset.mem_univ k)
  rw [← hold, ← hnew, hrest, Function.update_self]
  exact add_right_comm _ _ _

/-- What holds of all trees still does when one of them is replaced. -/
theorem forall_update {P : AvlTree (TwEvent T) → Prop} {k : Fin nkp}
    {t : Fin nkp → AvlTree (TwEvent T)} {t' : AvlTree (TwEvent T)} (h : ∀ i, P (t i)) (ht : P t') :
    ∀ i, P (Function.update t k t' i) := by
  intro i
  by_cases hi : i = k
  · subst hi
    rwa [Function.update_self]
  · rw [Function.update_of_ne hi]
    exact h i

end

/-- `tw_hash_insert` of a new key, unless the nodes are used up. -/
theorem twHashInsert_ok {avlSize : Nat} (h : Wellformed avlSize s)
    (ha : s.Admissible kpOf (.insert e)) :
    s.twHashInsert kpOf e = .error .outOfMemory ∨
      ∃ s', s.twHashInsert kpOf e = .ok s' ∧ Wellformed avlSize s' ∧
        Replaces kpOf s s' e [] [e] := by
  obtain ⟨tree, list⟩ := s
  obtain ⟨hsort, hsan⟩ := h.tree (kpOf e.destLp)
  match list, h with
  | [], h => exact absurd rfl h.free
  | [_], h =>
      left
      unfold twHashInsert
      rw [avlInsert_outOfMemory rfl]
  | a :: next :: free, h =>
      right
      obtain ⟨t', hins, hi, hsan'⟩ := avlInsert_ok a next free hsan hsort ha
      obtain ⟨l₁, l₂, ht, ht', hbet⟩ := hi.inorder hsort
      have hsort' : AvlSorted t'.inorder := by
        unfold AvlSorted at hsort ⊢
        dsimp only at hsort
        rw [ht, List.pairwise_append] at hsort
        rw [ht', List.pairwise_append, List.pairwise_cons]
        refine ⟨hsort.1, ⟨hbet.above, hsort.2.1⟩, fun x hx y hy => ?_⟩
        rcases List.mem_cons.mp hy with rfl | hy
        · exact hbet.below x hx
        · exact hsort.2.2 x hx y hy
      refine ⟨⟨Function.update tree (kpOf e.destLp) t', next :: free⟩, ?_,
        ⟨forall_update (P := SearchTree) h.tree ⟨hsort', hsan'⟩, List.cons_ne_nil _ _, ?_⟩,
        ⟨l₁, l₂, ?_, ?_⟩, fun k hk => Function.update_of_ne hk _ _⟩
      · unfold twHashInsert
        rw [hins]
      · rw [← h.nodes]
        have hsum := sum_update tree (kpOf e.destLp) t'
        rw [hi.nodes, Multiset.add_cons, ← Multiset.cons_add, add_right_cancel_iff] at hsum
        unfold allNodes
        dsimp only
        rw [hsum, ← Multiset.cons_coe a, Multiset.cons_add, Multiset.add_cons]
      · rw [List.append_nil]
        exact ht
      · unfold treeOf
        dsimp only
        rw [Function.update_self, ht', List.append_assoc, List.singleton_append]

/-- `tw_hash_remove` of a key present. -/
theorem twHashRemove_ok {avlSize : Nat} (h : Wellformed avlSize s)
    (hf : f ∈ (s.treeOf kpOf e).inorder) (hk : avlKey f = avlKey e) :
    ∃ s', s.twHashRemove kpOf e = .ok (f, s') ∧ Wellformed avlSize s' ∧
      Replaces kpOf s s' e [f] [] := by
  obtain ⟨tree, free⟩ := s
  obtain ⟨hsort, hsan⟩ := h.tree (kpOf e.destLp)
  obtain ⟨a, t', hdel, hd, hsan'⟩ := avlDelete_ok free hsan hsort hf hk
  obtain ⟨l₁, l₂, ht, ht'⟩ := hd.inorder
  have hsort' : AvlSorted t'.inorder := by
    have hsub : (l₁ ++ l₂).Sublist (l₁ ++ f :: l₂) :=
      (List.Sublist.refl l₁).append (List.sublist_cons_self f l₂)
    exact ht' ▸ (ht ▸ hsort : AvlSorted (l₁ ++ f :: l₂)).sublist hsub
  refine ⟨⟨Function.update tree (kpOf e.destLp) t', a :: free⟩, ?_,
    ⟨forall_update (P := SearchTree) h.tree ⟨hsort', hsan'⟩, List.cons_ne_nil _ _, ?_⟩,
    ⟨l₁, l₂, ?_, ?_⟩, fun k hk => Function.update_of_ne hk _ _⟩
  · unfold twHashRemove
    rw [hdel]
  · rw [← h.nodes]
    have hsum := sum_update tree (kpOf e.destLp) t'
    have hnodes := hd.nodes
    rw [hnodes, Multiset.add_cons, ← Multiset.cons_add, add_right_cancel_iff] at hsum
    unfold allNodes
    dsimp only
    rw [← hsum, ← Multiset.cons_coe a, Multiset.cons_add, Multiset.add_cons]
  · rw [List.append_assoc, List.singleton_append]
    exact ht
  · unfold treeOf
    dsimp only
    rw [Function.update_self, ht', List.append_nil]

theorem create_wellformed (avlSize : Nat) :
    Wellformed avlSize (create avlSize : AvlIndex T nkp) where
  tree _ := ⟨List.Pairwise.nil, trivial⟩
  free := by
    have hpos : 0 < 2 ^ avlSize := Nat.two_pow_pos avlSize
    exact fun hnil => (List.range_eq_nil.mp hnil ▸ hpos).false
  nodes := by
    unfold allNodes create
    simp only [nodes, Finset.sum_const_zero, zero_add]

theorem wellformed_call {avlSize : Nat} {op : IndexOp T} (h : Wellformed avlSize s)
    (ha : s.Admissible kpOf op) (hst : s.call kpOf op = .ok s') : Wellformed avlSize s' := by
  cases op with
  | insert e =>
      rcases twHashInsert_ok h ha with herr | ⟨s₁, hok, hw, -⟩
      · rw [call, herr] at hst
        cases hst
      · rw [call, hok] at hst
        cases hst
        exact hw
  | remove e =>
      obtain ⟨f, hf, hk⟩ := ha
      obtain ⟨s₁, hok, hw, -⟩ := twHashRemove_ok h hf hk
      rw [call, hok] at hst
      cases hst
      exact hw

/-- The states of the index after calls that insert new keys and remove present
ones. -/
def AdmissibleRun (kpOf : Nat → Fin nkp) (avlSize : Nat) : AvlIndex T nkp → Prop :=
  ReachableVia (· = create avlSize) (fun a op b => a.call kpOf op = .ok b) (Admissible kpOf)

theorem wellformed_of_run {avlSize : Nat} (hs : AdmissibleRun kpOf avlSize s) :
    Wellformed avlSize s :=
  hs.invariant (fun _ h => h ▸ create_wellformed avlSize) fun _ _ _ h ha hst =>
    wellformed_call h ha hst

/-- The trees stay search trees with right heights; an insertion adds the event, or
stops because the nodes are used up; a deletion returns the event stored under the
key and removes it alone; and the nodes in the trees and in the free list are those
of the start. -/
theorem correct_map {avlSize : Nat} (hs : AdmissibleRun kpOf avlSize s) :
    (∀ k, SearchTree (s.avlTree k)) ∧
      s.allNodes = (List.range (2 ^ avlSize) : Multiset Nat) ∧
      (∑ k, (s.avlTree k).nodes.card) + s.avlListHead.length = 2 ^ avlSize ∧
      (∀ e, s.Admissible kpOf (.insert e) →
        s.twHashInsert kpOf e = .error .outOfMemory ∨
          ∃ s', s.twHashInsert kpOf e = .ok s' ∧ Replaces kpOf s s' e [] [e]) ∧
      ∀ e, ∀ f ∈ (s.treeOf kpOf e).inorder, avlKey f = avlKey e →
        ∃ s', s.twHashRemove kpOf e = .ok (f, s') ∧ Replaces kpOf s s' e [f] [] := by
  have h := wellformed_of_run hs
  refine ⟨h.tree, h.nodes, ?_, fun e he => ?_, fun e f hf hk => ?_⟩
  · have hcard := congrArg Multiset.card h.nodes
    rw [allNodes, Multiset.card_add, Multiset.coe_card, Multiset.coe_card, List.length_range,
      Multiset.card_sum] at hcard
    exact hcard
  · rcases twHashInsert_ok h he with herr | ⟨s', hok, -, hr⟩
    · exact .inl herr
    · exact .inr ⟨s', hok, hr⟩
  · obtain ⟨s', hok, -, hr⟩ := twHashRemove_ok h hf hk
    exact ⟨s', hok, hr⟩

/-- An event with the time stamp `t`. -/
def keyed (t : Int) : TwEvent Int := ⟨t.toNat, ⟨t, 0, [0]⟩, 0, 0, 0, 0⟩

theorem correct_map_run :
    ∃ s : AvlIndex Int 1, AdmissibleRun (fun _ => 0) 3 s ∧
      (s.avlTree 0).inorder = [keyed 1, keyed 3] ∧
      (∑ k, (s.avlTree k).nodes.card) + s.avlListHead.length = 8 := by
  have hrun : ∃ s : AvlIndex Int 1, AdmissibleRun (fun _ => 0) 3 s ∧
      decide ((s.avlTree 0).inorder = [keyed 1, keyed 3]) = true :=
    ReachableVia.exists_of_runList (fun a op => decide (a.Admissible (fun _ => 0) op)) _
      [.insert (keyed 1), .insert (keyed 2), .insert (keyed 3), .remove (keyed 2)]
      (fun _ _ h => of_decide_eq_true h) (.start rfl) (by decide +kernel)
  obtain ⟨s, hs, ht⟩ := hrun
  exact ⟨s, hs, of_decide_eq_true ht, (correct_map hs).2.2.1⟩

end AvlIndex

end Ross

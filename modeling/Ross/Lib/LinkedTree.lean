import Mathlib.Data.List.Nodup
import Mathlib.Data.List.Perm.Basic

/-!
# Binary trees through pointers

A binary tree kept in memory as two child pointers and a parent pointer for each
element.  `Rep` says which tree the pointers form, `Hole` which path leads from a
subtree up to the root, and the rules for both say which pointers they depend
on.  The two sides are a parameter, so that a rule and its mirror image are one.
-/

namespace LinkedTree

/-- The two children of an element. -/
inductive Side
  | left
  | right
deriving DecidableEq

/-- The other side. -/
def Side.flip : Side → Side
  | .left => .right
  | .right => .left

@[simp, grind =] theorem Side.flip_flip (d : Side) : d.flip.flip = d := by cases d <;> rfl

@[simp, grind .] theorem Side.flip_ne (d : Side) : d.flip ≠ d := by cases d <;> decide

@[simp] theorem Side.ne_flip (d : Side) : d ≠ d.flip := by cases d <;> decide

theorem Side.eq_or_flip (d e : Side) : e = d ∨ e = d.flip := by
  cases d <;> cases e <;> simp [Side.flip]

/-! ## Pointers -/

/-- The pointers of all elements; `none` is `NULL`. -/
structure Links (α : Type) where
  child : Side → α → Option α
  up : α → Option α

namespace Links

variable {α : Type} [DecidableEq α]

/-- Assign to a child pointer. -/
def setChild (L : Links α) (d : Side) (a : α) (x : Option α) : Links α :=
  { L with child := fun e b => if e = d ∧ b = a then x else L.child e b }

/-- Assign to the parent pointer of `a`. -/
def setUp (L : Links α) (a : α) (x : Option α) : Links α :=
  { L with up := fun b => if b = a then x else L.up b }

/-- Assign to the parent pointer of `p` unless `p` is `NULL`. -/
def setUp? (L : Links α) (p : Option α) (x : Option α) : Links α :=
  match p with
  | some a => L.setUp a x
  | none => L

variable (L : Links α)

@[simp, grind =] theorem setChild_child (d e : Side) (a b : α) (x : Option α) :
    (L.setChild d a x).child e b = if e = d ∧ b = a then x else L.child e b := rfl

@[simp, grind =] theorem setChild_up (d : Side) (a b : α) (x : Option α) :
    (L.setChild d a x).up b = L.up b := rfl

@[simp, grind =] theorem setUp_child (e : Side) (a b : α) (x : Option α) :
    (L.setUp a x).child e b = L.child e b := rfl

@[simp, grind =] theorem setUp_up (a b : α) (x : Option α) :
    (L.setUp a x).up b = if b = a then x else L.up b := rfl

@[simp, grind =] theorem setUp?_child (e : Side) (p : Option α) (b : α) (x : Option α) :
    (L.setUp? p x).child e b = L.child e b := by cases p <;> rfl

@[simp, grind =] theorem setUp?_up (p : Option α) (b : α) (x : Option α) :
    (L.setUp? p x).up b = if p = some b then x else L.up b := by
  cases p with
  | none => simp [setUp?]
  | some a => simp [setUp?, eq_comm]

end Links

/-! ## Trees -/

/-- A binary tree. -/
inductive BinTree (α : Type)
  | leaf
  | node (l : BinTree α) (a : α) (r : BinTree α)

/-- One edge of a path: the subtree is the child on `side` of `elem`, whose other
child is `sibling`. -/
structure Frame (α : Type) where
  side : Side
  elem : α
  sibling : BinTree α

namespace BinTree

variable {α : Type}

/-- The elements in order. -/
def toList : BinTree α → List α
  | leaf => []
  | node l a r => l.toList ++ a :: r.toList

/-- The pointer to the tree. -/
def root? : BinTree α → Option α
  | leaf => none
  | node _ a _ => some a

/-- The node `a` with the child `t` on the side `d` and `s` on the other. -/
def join (d : Side) (t : BinTree α) (a : α) (s : BinTree α) : BinTree α :=
  match d with
  | .left => node t a s
  | .right => node s a t

@[simp] theorem root?_join (d : Side) (t : BinTree α) (a : α) (s : BinTree α) :
    (join d t a s).root? = some a := by cases d <;> rfl

theorem toList_join (d : Side) (t : BinTree α) (a : α) (s : BinTree α) :
    (join d t a s).toList =
      match d with
      | .left => t.toList ++ a :: s.toList
      | .right => s.toList ++ a :: t.toList := by cases d <;> rfl

theorem join_perm (d : Side) (t : BinTree α) (a : α) (s : BinTree α) :
    (join d t a s).toList.Perm (a :: (t.toList ++ s.toList)) := by
  cases d with
  | left => exact List.perm_middle
  | right => exact List.perm_middle.trans (List.perm_append_comm.cons a)

theorem root?_mem {t : BinTree α} {a : α} (h : t.root? = some a) : a ∈ t.toList := by
  cases t with
  | leaf => cases h
  | node l b r =>
      cases h
      exact List.mem_append_right _ List.mem_cons_self

theorem root?_eq_none {t : BinTree α} : t.root? = none ↔ t.toList = [] := by
  cases t with
  | leaf => simp [root?, toList]
  | node l a r => simp [root?, toList]

/-- Every node has a side on which a given child is. -/
theorem exists_join {t : BinTree α} (d : Side) (h : t ≠ leaf) :
    ∃ l a r, t = join d l a r := by
  cases t with
  | leaf => exact absurd rfl h
  | node l a r =>
      cases d with
      | left => exact ⟨l, a, r, rfl⟩
      | right => exact ⟨r, a, l, rfl⟩

/-- Put the subtree `t` at the end of a path. -/
def plug (t : BinTree α) : List (Frame α) → BinTree α
  | [] => t
  | f :: k => plug (join f.side t f.elem f.sibling) k

/-- The elements along a path, in the order of the tree, before its subtree. -/
def before : List (Frame α) → List α
  | [] => []
  | f :: k =>
      before k ++
        match f.side with
        | .left => []
        | .right => f.sibling.toList ++ [f.elem]

/-- The elements after it. -/
def after : List (Frame α) → List α
  | [] => []
  | f :: k =>
      (match f.side with
        | .left => f.elem :: f.sibling.toList
        | .right => []) ++ after k

/-- The elements along a path. -/
def pathList : List (Frame α) → List α
  | [] => []
  | f :: k => f.elem :: (f.sibling.toList ++ pathList k)

theorem toList_plug (t : BinTree α) (k : List (Frame α)) :
    (plug t k).toList = before k ++ (t.toList ++ after k) := by
  induction k generalizing t with
  | nil => simp [plug, before, after]
  | cons f k ih =>
      obtain ⟨side, a, s⟩ := f
      rw [plug, ih, toList_join]
      cases side <;> simp [before, after]

/-- Nothing stands before a path down the left sides. -/
theorem before_left {k k' : List (Frame α)} (h : ∀ f ∈ k', f.side = .left) :
    before (k' ++ k) = before k := by
  induction k' with
  | nil => rfl
  | cons f k' ih =>
      rw [List.cons_append, before, h f List.mem_cons_self, List.append_nil]
      exact ih fun g hg => h g (List.mem_cons_of_mem f hg)

/-- Nothing stands after a path down the right sides. -/
theorem after_right {k k' : List (Frame α)} (h : ∀ f ∈ k', f.side = .right) :
    after (k' ++ k) = after k := by
  induction k' with
  | nil => rfl
  | cons f k' ih =>
      rw [List.cons_append, after, h f List.mem_cons_self, List.nil_append]
      exact ih fun g hg => h g (List.mem_cons_of_mem f hg)

theorem before_after_perm (k : List (Frame α)) : (before k ++ after k).Perm (pathList k) := by
  induction k with
  | nil => exact .nil
  | cons f k ih =>
      obtain ⟨side, a, s⟩ := f
      cases side with
      | left =>
          simp only [before, after, pathList, List.append_nil]
          refine (List.perm_append_comm_assoc _ _ _).trans ?_
          exact (List.Perm.append_left _ ih)
      | right =>
          simp only [before, after, pathList, List.nil_append, List.append_assoc]
          refine (List.perm_append_comm_assoc _ _ _).trans ?_
          refine (List.Perm.append_left _ (List.perm_append_comm_assoc _ _ _)).trans ?_
          exact List.perm_middle.trans ((List.Perm.append_left _ ih).cons a)

theorem plug_perm (t : BinTree α) (k : List (Frame α)) :
    (plug t k).toList.Perm (t.toList ++ pathList k) := by
  rw [toList_plug]
  exact (List.perm_append_comm_assoc _ _ _).trans ((before_after_perm k).append_left _)

/-- A path is no longer than the tree. -/
theorem length_le_plug (t : BinTree α) (k : List (Frame α)) :
    t.toList.length + k.length ≤ (plug t k).toList.length := by
  have hpath : ∀ k : List (Frame α), k.length ≤ (pathList k).length := by
    intro k
    induction k with
    | nil => exact Nat.le_refl _
    | cons f k ih =>
        rw [pathList, List.length_cons, List.length_cons, List.length_append]
        omega
  rw [(plug_perm t k).length_eq, List.length_append]
  exact Nat.add_le_add_left (hpath k) _

end BinTree

variable {α : Type}

open BinTree

/-! ## The tree that the pointers form -/

/-- The pointers below the parent `u` form the tree. -/
def Rep (L : Links α) : BinTree α → Option α → Prop
  | leaf, _ => True
  | node l a r, u =>
      L.up a = u ∧ L.child .left a = l.root? ∧ L.child .right a = r.root? ∧
        Rep L l (some a) ∧ Rep L r (some a)

/-- The path leads from a subtree whose pointer is `p`, below the parent `u`, up
to the root. -/
def Hole (L : Links α) (p : Option α) : Option α → List (Frame α) → Prop
  | u, [] => u = none
  | u, f :: k =>
      u = some f.elem ∧ L.child f.side f.elem = p ∧
        L.child f.side.flip f.elem = f.sibling.root? ∧ Rep L f.sibling (some f.elem) ∧
        Hole L (some f.elem) (L.up f.elem) k

/-- The pointers form a tree with the subtree `t` at the end of the path `k`. -/
def Focus (L : Links α) (t : BinTree α) (k : List (Frame α)) : Prop :=
  ∃ u, Rep L t u ∧ Hole L t.root? u k

variable {L L' : Links α} {t l r : BinTree α} {a : α} {u u' : Option α} {k : List (Frame α)}

theorem rep_join (d : Side) : Rep L (join d l a r) u ↔
    L.up a = u ∧ L.child d a = l.root? ∧ L.child d.flip a = r.root? ∧
      Rep L l (some a) ∧ Rep L r (some a) := by
  cases d with
  | left => exact Iff.rfl
  | right =>
      simp only [join, Rep, Side.flip]
      constructor
      · rintro ⟨h₁, h₂, h₃, h₄, h₅⟩
        exact ⟨h₁, h₃, h₂, h₅, h₄⟩
      · rintro ⟨h₁, h₂, h₃, h₄, h₅⟩
        exact ⟨h₁, h₃, h₂, h₅, h₄⟩

/-- The tree depends on the child pointers of its elements and on their parent
pointers, of which that of the root is the parent. -/
theorem Rep.congr (h : Rep L t u) (hn : t.toList.Nodup)
    (hc : ∀ x ∈ t.toList, ∀ d, L'.child d x = L.child d x)
    (hu : ∀ x ∈ t.toList, t.root? ≠ some x → L'.up x = L.up x)
    (hr : ∀ x, t.root? = some x → L'.up x = u') : Rep L' t u' := by
  induction t generalizing u u' with
  | leaf => trivial
  | node l a r ihl ihr =>
      obtain ⟨-, hl, hr', hsl, hsr⟩ := h
      obtain ⟨hnl, hnr, hdis⟩ := List.nodup_append.mp hn
      obtain ⟨har, hnr⟩ := List.nodup_cons.mp hnr
      have hal : a ∉ l.toList := fun ha => hdis a ha a List.mem_cons_self rfl
      have ha : a ∈ (node l a r).toList := List.mem_append_right _ List.mem_cons_self
      have hml : ∀ x ∈ l.toList, x ∈ (node l a r).toList := fun x hx => List.mem_append_left _ hx
      have hmr : ∀ x ∈ r.toList, x ∈ (node l a r).toList :=
        fun x hx => List.mem_append_right _ (List.mem_cons_of_mem a hx)
      have hup : ∀ x ∈ (node l a r).toList, x ≠ a → L'.up x = L.up x := fun x hx hne =>
        hu x hx fun he => hne (Option.some.inj he).symm
      have hroot : ∀ {s : BinTree α}, Rep L s (some a) →
          ∀ x, s.root? = some x → L.up x = some a := by
        intro s hs x hx
        cases s with
        | leaf => cases hx
        | node _ b _ =>
            cases hx
            exact hs.1
      refine ⟨hr a rfl, (hc a ha _).trans hl, (hc a ha _).trans hr', ?_, ?_⟩
      · refine ihl hsl hnl (fun x hx => hc x (hml x hx)) (fun x hx _ => ?_) fun x hx => ?_
        · exact hup x (hml x hx) fun he => hal (he ▸ hx)
        · have hx' := root?_mem hx
          rw [hup x (hml x hx') fun he => hal (he ▸ hx')]
          exact hroot hsl x hx
      · refine ihr hsr hnr (fun x hx => hc x (hmr x hx)) (fun x hx _ => ?_) fun x hx => ?_
        · exact hup x (hmr x hx) fun he => har (he ▸ hx)
        · have hx' := root?_mem hx
          rw [hup x (hmr x hx') fun he => har (he ▸ hx')]
          exact hroot hsr x hx

/-- The root's parent pointer is the parent. -/
theorem Rep.up_root (h : Rep L t u) (ha : t.root? = some a) : L.up a = u := by
  cases t with
  | leaf => cases ha
  | node l b r =>
      cases ha
      exact h.1

/-- A tree of which no pointer changes. -/
theorem Rep.same (h : Rep L t u) (hn : t.toList.Nodup)
    (hc : ∀ x ∈ t.toList, ∀ d, L'.child d x = L.child d x)
    (hu : ∀ x ∈ t.toList, L'.up x = L.up x) : Rep L' t u :=
  h.congr hn hc (fun x hx _ => hu x hx) fun x hx => (hu x (root?_mem hx)).trans (h.up_root hx)

/-- The first pointer of a path is that of its subtree, the others do not
change. -/
theorem Hole.congr {p p' : Option α} (h : Hole L p u k) (hn : (pathList k).Nodup)
    (hc : ∀ x ∈ pathList k, ∀ d, (∀ f ∈ k.head?, ¬ (d = f.side ∧ x = f.elem)) →
      L'.child d x = L.child d x)
    (hp : ∀ f ∈ k.head?, L'.child f.side f.elem = p')
    (hu : ∀ x ∈ pathList k, L'.up x = L.up x) : Hole L' p' u k := by
  induction k generalizing u p p' with
  | nil => exact h
  | cons f k ih =>
      obtain ⟨hup, -, hsib, hrep, hrest⟩ := h
      obtain ⟨hne, hn'⟩ := List.nodup_cons.mp hn
      obtain ⟨hns, hnk, hdis⟩ := List.nodup_append.mp hn'
      have hms : ∀ x ∈ f.sibling.toList, x ∈ pathList (f :: k) := fun x hx =>
        List.mem_cons_of_mem _ (List.mem_append_left _ hx)
      have hmk : ∀ x ∈ pathList k, x ∈ pathList (f :: k) := fun x hx =>
        List.mem_cons_of_mem _ (List.mem_append_right _ hx)
      have hchild : ∀ x ∈ pathList (f :: k), x ≠ f.elem → ∀ d, L'.child d x = L.child d x := by
        intro x hx hxe d
        refine hc x hx d fun g hg => ?_
        cases hg
        exact fun hd => hxe hd.2
      refine ⟨hup, hp f rfl, ?_, ?_, ?_⟩
      · rw [← hsib]
        refine hc f.elem List.mem_cons_self _ fun g hg => ?_
        cases hg
        exact fun hd => f.side.flip_ne hd.1
      · refine hrep.same hns (fun x hx => ?_) fun x hx => hu x (hms x hx)
        exact hchild x (hms x hx) fun he => hne (List.mem_append_left _ (he ▸ hx))
      · rw [hu f.elem List.mem_cons_self]
        have hback : ∀ x ∈ pathList k, ∀ d, L'.child d x = L.child d x := fun x hx =>
          hchild x (hmk x hx) fun he => hne (List.mem_append_right _ (he ▸ hx))
        refine ih hrest hnk (fun x hx d _ => hback x hx d) (fun g hg => ?_)
          fun x hx => hu x (hmk x hx)
        cases k with
        | nil => cases hg
        | cons g' k =>
            cases hg
            rw [hback _ List.mem_cons_self]
            exact hrest.2.1

/-- The pointer that leads into a path's subtree comes from its first element. -/
theorem Hole.up_eq {p : Option α} (h : Hole L p u k) : u = k.head?.map (·.elem) := by
  cases k with
  | nil => exact h
  | cons f k => exact h.1

/-- The child pointer from which a path's subtree hangs. -/
theorem Hole.head_child {p : Option α} (h : Hole L p u k) {f : Frame α} (hf : f ∈ k.head?) :
    L.child f.side f.elem = p ∧ f.elem ∈ pathList k := by
  cases k with
  | nil => cases hf
  | cons g k =>
      cases hf
      exact ⟨h.2.1, List.mem_cons_self⟩

/-! ## Moving the focus -/

theorem focus_nil : Focus L t [] ↔ Rep L t none := by
  constructor
  · rintro ⟨u, hr, rfl⟩
    exact hr
  · exact fun h => ⟨none, h, rfl⟩

/-- Going down to a child. -/
theorem focus_join {d : Side} : Focus L (join d l a r) k ↔ Focus L l (⟨d, a, r⟩ :: k) := by
  constructor
  · rintro ⟨u, hr, hh⟩
    obtain ⟨hu, hl, hr', hsl, hsr⟩ := (rep_join d).mp hr
    rw [root?_join] at hh
    exact ⟨some a, hsl, rfl, hl, hr', hsr, hu ▸ hh⟩
  · rintro ⟨u, hr, hu, hl, hr', hsr, hh⟩
    refine ⟨L.up a, (rep_join d).mpr ⟨rfl, hl, hr', ?_, hsr⟩, ?_⟩
    · exact hu ▸ hr
    · rw [root?_join]
      exact hh

theorem focus_plug : Focus L t k ↔ Rep L (plug t k) none := by
  induction k generalizing t with
  | nil => exact focus_nil
  | cons f k ih => exact focus_join.symm.trans ih

/-- Every element of a tree is the root of a subtree at the end of a path. -/
theorem exists_plug {x : α} (hx : x ∈ t.toList) :
    ∃ A B k, t = plug (node A x B) k := by
  have key : ∀ (t : BinTree α) (k : List (Frame α)), x ∈ t.toList →
      ∃ A B k', plug t k = plug (node A x B) k' := by
    intro t
    induction t with
    | leaf => intro k hx; cases hx
    | node l a r ihl ihr =>
        intro k hx
        rcases List.mem_append.mp hx with hx | hx
        · exact ihl (⟨.left, a, r⟩ :: k) hx
        · rcases List.mem_cons.mp hx with rfl | hx
          · exact ⟨l, r, k, rfl⟩
          · exact ihr (⟨.right, a, l⟩ :: k) hx
  exact key t [] hx

/-- The root of the whole tree does not depend on a subtree at the end of a
path. -/
theorem root?_plug {s : BinTree α} (h : k ≠ [] ∨ t.root? = s.root?) :
    (plug t k).root? = (plug s k).root? := by
  induction k generalizing t s with
  | nil => exact h.resolve_left fun h => h rfl
  | cons f k ih => exact ih (.inr (by rw [root?_join, root?_join]))

/-! ## Cutting off and hanging up a subtree -/

section Hang

variable [DecidableEq α]

/-- The order of two assignments to different pointers. -/
theorem setChild_setUp? (L : Links α) (d : Side) (a : α) (x p y : Option α) :
    (L.setChild d a x).setUp? p y = (L.setUp? p y).setChild d a x := by
  cases p <;> rfl

/-- Another parent for a tree. -/
theorem Rep.reparent (u' : Option α) (h : Rep L t u) (hn : t.toList.Nodup) :
    Rep (L.setUp? t.root? u') t u' := by
  refine h.congr hn (fun _ _ _ => L.setUp?_child ..) (fun x _ hx => ?_) fun x hx => ?_
  · rw [L.setUp?_up, if_neg hx]
  · rw [L.setUp?_up, if_pos hx]

/-- The parent pointer of an element off the path. -/
theorem Hole.setUp {p q x : Option α} (h : Hole L p u k) (hn : (pathList k).Nodup)
    (hq : ∀ b, q = some b → b ∉ pathList k) : Hole (L.setUp? q x) p u k := by
  refine h.congr hn (fun _ _ _ _ => L.setUp?_child ..) (fun f hf => ?_) fun b hb => ?_
  · rw [L.setUp?_child]
    exact (h.head_child hf).1
  · rw [L.setUp?_up]
    exact if_neg fun he => hq b he hb

/-- A tree hung up at the end of a path in place of what was there. -/
theorem focus_hang {p : Option α} {f : Frame α} (hr : Rep L t (some f.elem))
    (hh : Hole L p u (f :: k)) (hn : (t.toList ++ pathList (f :: k)).Nodup) :
    Focus (L.setChild f.side f.elem t.root?) t (f :: k) := by
  obtain ⟨ht, hk, hdis⟩ := List.nodup_append.mp hn
  have hf : f.elem ∈ pathList (f :: k) := List.mem_cons_self
  refine ⟨some f.elem, hr.same ht (fun x hx d => ?_) fun x _ => rfl, ?_⟩
  · rw [L.setChild_child]
    exact if_neg fun he => hdis x hx f.elem hf he.2
  · rw [← hh.1]
    refine hh.congr hk (fun x _ d hd => ?_) (fun g hg => ?_) fun x _ => rfl
    · rw [L.setChild_child]
      exact if_neg (hd f rfl)
    · cases hg
      rw [L.setChild_child]
      exact if_pos ⟨rfl, rfl⟩

/-- The same for a tree that has another parent before. -/
theorem focus_replace {p : Option α} {u' : Option α} {f : Frame α} (hr : Rep L t u')
    (hh : Hole L p u (f :: k)) (hn : (t.toList ++ pathList (f :: k)).Nodup) :
    Focus ((L.setChild f.side f.elem t.root?).setUp? t.root? (some f.elem)) t (f :: k) := by
  obtain ⟨ht, hk, hdis⟩ := List.nodup_append.mp hn
  rw [setChild_setUp?]
  refine focus_hang (hr.reparent _ ht) (hh.setUp hk fun b hb hbk => ?_) hn
  exact hdis b (root?_mem hb) b hbk rfl

end Hang

end LinkedTree

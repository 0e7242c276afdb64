import Ross.Core.Splay

/-!
# `splay` and the loops down the tree

A turn of `splay` keeps the order of the elements and moves its node up one or
two levels; the pointers outside of the tree do not change.
-/

namespace Ross

open LinkedTree BinTree

variable {α : Type} [DecidableEq α] {L L' : Links α} {A B C D t : BinTree α} {n p g : α}
  {k : List (Frame α)} {d e : Side}

/-! ## The pointers after a rotation -/

@[grind =] theorem rotate_child (L : Links α) (d e : Side) (n p x : α) (z : Option α) :
    (rotate L d n p z).child e x =
      if e = d.flip ∧ x = n then some p
      else if e = d ∧ x = p then L.child d.flip n
      else L.child e x := by
  simp [rotate]

@[grind =] theorem rotate_up (L : Links α) (d : Side) (n p x : α) (z : Option α) :
    (rotate L d n p z).up x =
      if x = p then some n
      else if x = n then z
      else if L.child d.flip n = some x then some p
      else L.up x := by
  simp [rotate]

/-- `zigZig` below the top pointer. -/
def zigZigBelow (L : Links α) (d : Side) (n p g : α) : Links α :=
  let x := L.child d.flip n
  let L := (L.setChild d p x).setUp? x (some p)
  let L := (L.setChild d.flip n (some p)).setUp p (some n)
  let x := L.child d.flip p
  let L := (L.setChild d g x).setUp? x (some g)
  (L.setChild d.flip p (some g)).setUp g (some p)

/-- `zigZag` below the top pointer. -/
def zigZagBelow (L : Links α) (d : Side) (n p g : α) : Links α :=
  let x := L.child d.flip n
  let L := ((L.setChild d p x).setUp? x (some p)).setChild d.flip n (some p)
  let x := L.child d n
  let L := ((L.setChild d.flip g x).setUp? x (some g)).setChild d n (some g)
  (L.setUp p (some n)).setUp g (some n)

theorem zigZig_eq (L : Links α) (d : Side) (n p g : α) :
    zigZig L d n p g = zigZigBelow (replaceTop L d n g) d n p g := rfl

theorem zigZag_eq (L : Links α) (d : Side) (n p g : α) :
    zigZag L d n p g = zigZagBelow (replaceTop L d n g) d n p g := rfl

@[grind =>] theorem zigZigBelow_child (L : Links α) (d e : Side) {n p : α} (g x : α)
    (hnp : n ≠ p) : (zigZigBelow L d n p g).child e x =
      if e = d.flip ∧ x = p then some g
      else if e = d ∧ x = g then L.child d.flip p
      else if e = d.flip ∧ x = n then some p
      else if e = d ∧ x = p then L.child d.flip n
      else L.child e x := by
  simp [zigZigBelow, hnp.symm]

@[grind =>] theorem zigZigBelow_up (L : Links α) (d : Side) {n p : α} (g x : α) (hnp : n ≠ p) :
    (zigZigBelow L d n p g).up x =
      if x = g then some p
      else if L.child d.flip p = some x then some g
      else if x = p then some n
      else if L.child d.flip n = some x then some p
      else L.up x := by
  simp [zigZigBelow, hnp.symm]

@[grind =>] theorem zigZagBelow_child (L : Links α) (d e : Side) {n p : α} (g x : α)
    (hnp : n ≠ p) : (zigZagBelow L d n p g).child e x =
      if e = d ∧ x = n then some g
      else if e = d.flip ∧ x = g then L.child d n
      else if e = d.flip ∧ x = n then some p
      else if e = d ∧ x = p then L.child d.flip n
      else L.child e x := by
  simp [zigZagBelow, hnp]

@[grind =>] theorem zigZagBelow_up (L : Links α) (d : Side) {n p : α} (g x : α) (hnp : n ≠ p) :
    (zigZagBelow L d n p g).up x =
      if x = g then some n
      else if x = p then some n
      else if L.child d n = some x then some g
      else if L.child d.flip n = some x then some p
      else L.up x := by
  simp [zigZagBelow, hnp]

/-! ## One turn -/

/-- The elements of a node, its parent, its grandparent and their subtrees. -/
def turnList (A : BinTree α) (n : α) (B : BinTree α) (p : α) (C : BinTree α) (g : α) (D : BinTree α)
    (k : List (Frame α)) : List α :=
  n :: p :: g :: (A.toList ++ (B.toList ++ (C.toList ++ (D.toList ++ pathList k))))

/-- The pointers of `n`, `p`, `g` and their subtrees, with the side of `p` open. -/
structure Around (L : Links α) (d e : Side) (A : BinTree α) (n : α) (B : BinTree α) (p : α)
    (C : BinTree α) (g : α) (D : BinTree α) (k : List (Frame α)) : Prop where
  near : L.child d n = A.root?
  far : L.child d.flip n = B.root?
  parent : L.child d.flip p = C.root?
  grand : L.child e.flip g = D.root?
  repA : Rep L A (some n)
  repB : Rep L B (some n)
  repC : Rep L C (some p)
  repD : Rep L D (some g)
  hole : Hole L (some n) (L.up n) k

/-- `replaceTop` hangs `n` below what is above `g`. -/
theorem replaceTop_around (hn : (turnList A n B p C g D k).Nodup)
    (h : Focus L (join d A n B) (⟨d, p, C⟩ :: ⟨e, g, D⟩ :: k)) :
    Around (replaceTop L d n g) d e A n B p C g D k := by
  obtain ⟨u, hr, hu, hpn, hpc, hsC, hup, hgp, hgd, hsD, hk⟩ := h
  obtain ⟨hun, hna, hnb, hsA, hsB⟩ := (rep_join d).mp hr
  simp only [turnList, List.nodup_cons, List.nodup_append, List.mem_append, List.mem_cons,
    not_or] at hn
  obtain ⟨⟨hnp, hng, hnA, hnB, hnC, hnD, hnk⟩, ⟨hpg, hpA, hpB, hpC, hpD, hpk⟩,
    ⟨hgA, hgB, hgC, hgD, hgk⟩, hA, ⟨hB, ⟨hC, ⟨hD, hkn, hDk⟩, hCD⟩, hBC⟩, hABC⟩ := hn
  dsimp only at hpc hsC hup hgp hgd hsD hk
  cases k with
  | nil =>
      have htop : replaceTop L d n g = L.setUp n none := by
        have hg : L.up g = none := hk
        simp only [replaceTop, hg]
      rw [htop]
      refine ⟨hna, hnb, hpc, hgd, hsA.same hA ?_ ?_, hsB.same hB ?_ ?_, hsC.same hC ?_ ?_,
        hsD.same hD ?_ ?_, ?_⟩
      all_goals grind [Hole]
  | cons f k =>
      have hall := hk
      obtain ⟨hug, hfg, hfs, -, -⟩ := hk
      have hmem : ∀ x, f.sibling.root? = some x → x ∈ pathList (f :: k) := fun x hx =>
        List.mem_cons_of_mem _ (List.mem_append_left _ (root?_mem hx))
      have hfk : f.elem ∈ pathList (f :: k) := List.mem_cons_self
      have hfne := f.side.ne_flip
      have htop : replaceTop L d n g =
          (L.setChild f.side f.elem (some n)).setUp n (some f.elem) := by
        simp only [replaceTop, hug]
        rcases Side.eq_or_flip d f.side with hfd | hfd
        · rw [if_pos (hfd ▸ hfg), hfd]
        · have hne : L.child d f.elem ≠ some g := by
            intro he
            rw [hfd, Side.flip_flip, he] at hfs
            exact hgk (hmem g hfs.symm)
          rw [if_neg hne, hfd]
      have hup : (replaceTop L d n g).up n = L.up g := by
        rw [htop, hug]
        exact if_pos rfl
      refine ⟨?_, ?_, ?_, ?_, hsA.same hA ?_ ?_, hsB.same hB ?_ ?_, hsC.same hC ?_ ?_,
        hsD.same hD ?_ ?_, hup ▸ hall.congr hkn ?_ ?_ ?_⟩
      all_goals rw [htop]
      all_goals grind

/-- The branch for two children on one side. -/
theorem focus_zigZig (hn : (turnList A n B p C g D k).Nodup)
    (h : Around L d d A n B p C g D k) :
    Focus (zigZigBelow L d n p g) (join d A n (join d B p (join d C g D))) k := by
  obtain ⟨hna, hnb, hpc, hgd, hsA, hsB, hsC, hsD, hup⟩ := h
  simp only [turnList, List.nodup_cons, List.nodup_append, List.mem_append, List.mem_cons,
    not_or] at hn
  obtain ⟨⟨hnp, hng, hnA, hnB, hnC, hnD, hnk⟩, ⟨hpg, hpA, hpB, hpC, hpD, hpk⟩,
    ⟨hgA, hgB, hgC, hgD, hgk⟩, hA, ⟨hB, ⟨hC, ⟨hD, hkn, hDk⟩, hCD⟩, hBC⟩, hABC⟩ := hn
  have hBroot := fun x => root?_mem (t := B) (a := x)
  have hCroot := fun x => root?_mem (t := C) (a := x)
  have hne := d.ne_flip
  refine ⟨L.up n, ?_, ?_⟩
  · rw [rep_join, rep_join, rep_join, root?_join, root?_join]
    refine ⟨?_, ?_, ?_, hsA.same hA ?_ ?_, ?_, ?_, ?_, hsB.congr hB ?_ ?_ ?_, ?_, ?_, ?_,
      hsC.congr hC ?_ ?_ ?_, hsD.same hD ?_ ?_⟩
    all_goals grind
  · rw [root?_join]
    have htop := fun f => hup.head_child (f := f)
    refine hup.congr hkn ?_ ?_ ?_
    all_goals grind

/-- The branch for two children on different sides. -/
theorem focus_zigZag (hn : (turnList A n B p C g D k).Nodup)
    (h : Around L d d.flip A n B p C g D k) :
    Focus (zigZagBelow L d n p g) (join d (join d.flip A g D) n (join d B p C)) k := by
  obtain ⟨hna, hnb, hpc, hgd, hsA, hsB, hsC, hsD, hup⟩ := h
  simp only [turnList, List.nodup_cons, List.nodup_append, List.mem_append, List.mem_cons,
    not_or] at hn
  obtain ⟨⟨hnp, hng, hnA, hnB, hnC, hnD, hnk⟩, ⟨hpg, hpA, hpB, hpC, hpD, hpk⟩,
    ⟨hgA, hgB, hgC, hgD, hgk⟩, hA, ⟨hB, ⟨hC, ⟨hD, hkn, hDk⟩, hCD⟩, hBC⟩, hABC⟩ := hn
  have hAroot := fun x => root?_mem (t := A) (a := x)
  have hBroot := fun x => root?_mem (t := B) (a := x)
  have hne := d.ne_flip
  refine ⟨L.up n, ?_, ?_⟩
  · rw [rep_join, rep_join, rep_join, root?_join, root?_join]
    refine ⟨?_, ?_, ?_, ⟨?_, ?_, ?_, hsA.congr hA ?_ ?_ ?_, hsD.same hD ?_ ?_⟩, ?_, ?_, ?_,
      hsB.congr hB ?_ ?_ ?_, hsC.same hC ?_ ?_⟩
    all_goals grind
  · rw [root?_join]
    have htop := fun f => hup.head_child (f := f)
    refine hup.congr hkn ?_ ?_ ?_
    all_goals grind

/-- The branch for a child of the root. -/
theorem focus_rotate (hn : (n :: p :: (A.toList ++ (B.toList ++ C.toList))).Nodup)
    (h : Focus L (join d A n B) [⟨d, p, C⟩]) :
    Focus (rotate L d n p none) (join d A n (join d B p C)) [] := by
  obtain ⟨u, hr, hu, hpn, hpc, hsC, hup⟩ := h
  obtain ⟨hun, hna, hnb, hsA, hsB⟩ := (rep_join d).mp hr
  simp only [List.nodup_cons, List.nodup_append, List.mem_append, List.mem_cons, not_or] at hn
  obtain ⟨⟨hnp, hnA, hnB, hnC⟩, ⟨hpA, hpB, hpC⟩, hA, ⟨hB, hC, hBC⟩, hABC⟩ := hn
  have hBroot := fun x => root?_mem (t := B) (a := x)
  have hne := d.ne_flip
  rw [focus_nil, rep_join, rep_join, root?_join]
  dsimp only at hpc hsC
  refine ⟨?_, ?_, ?_, hsA.same hA ?_ ?_, ?_, ?_, ?_, hsB.congr hB ?_ ?_ ?_, hsC.same hC ?_ ?_⟩
  all_goals grind

/-! ## The loop -/

/-- The two links have the same pointers outside of a list. -/
def AgreeOff (l : List α) (L L' : Links α) : Prop :=
  ∀ x, x ∉ l → (∀ d, L'.child d x = L.child d x) ∧ L'.up x = L.up x

section

omit [DecidableEq α]

/-- The list of the tree, seen from a node and its parent. -/
theorem parentList_perm : (plug (join d A n B) (⟨d, p, C⟩ :: k)).toList.Perm
    (n :: p :: (A.toList ++ (B.toList ++ (C.toList ++ pathList k)))) := by
  refine (plug_perm _ _).trans (((join_perm d A n B).append_right _).trans ?_)
  simp only [pathList, List.cons_append, List.append_assoc]
  refine List.Perm.cons n ?_
  rw [← List.append_assoc, ← List.append_assoc]
  exact List.perm_middle

theorem turnList_perm : (plug (join d A n B) (⟨d, p, C⟩ :: ⟨e, g, D⟩ :: k)).toList.Perm
    (turnList A n B p C g D k) := by
  refine parentList_perm.trans (List.Perm.cons n (List.Perm.cons p ?_))
  simp only [pathList]
  rw [← List.append_assoc, ← List.append_assoc]
  refine List.perm_middle.trans (List.Perm.cons g ?_)
  rw [List.append_assoc, List.append_assoc]

end

theorem replaceTop_off (hup : L.up g = k.head?.map (·.elem)) :
    AgreeOff (n :: pathList k) L (replaceTop L d n g) := by
  intro x hx
  obtain ⟨hxn, hxk⟩ := not_or.mp (mt List.mem_cons.mpr hx)
  unfold replaceTop
  cases k with
  | nil =>
      simp only [hup, List.head?_nil, Option.map_none]
      exact ⟨fun _ => rfl, if_neg hxn⟩
  | cons f k =>
      have hxf : x ≠ f.elem := fun he => hxk (he ▸ List.mem_cons_self)
      simp only [hup, List.head?_cons, Option.map_some]
      refine ⟨fun e => ?_, ?_⟩
      · split <;> simp [hxf]
      · split <;> simp [hxn]

/-- A turn of the loop brings `n` nearer to the root and keeps the order. -/
theorem splayTurn_focus {f : Frame α} (hn : (plug (node A n B) (f :: k)).toList.Nodup)
    (h : Focus L (node A n B) (f :: k)) :
    ∃ A' B' k', Focus (splayTurn L n f.elem) (node A' n B') k' ∧
      (plug (node A' n B') k').toList = (plug (node A n B) (f :: k)).toList ∧
      k'.length ≤ k.length ∧
      AgreeOff (plug (node A n B) (f :: k)).toList L (splayTurn L n f.elem) := by
  obtain ⟨d, p, C⟩ := f
  obtain ⟨A', a, B', hj⟩ := exists_join (t := node A n B) d (fun h => by cases h)
  have ha : a = n := by
    have := congrArg root? hj
    rw [root?_join] at this
    exact (Option.some.inj this).symm
  subst ha
  rw [hj] at h hn ⊢
  have hnode : ∀ X Y, ∃ A B, join d X a Y = node A a B := fun X Y => by
    cases d
    · exact ⟨X, Y, rfl⟩
    · exact ⟨Y, X, rfl⟩
  have hp := h
  obtain ⟨u, hr, -, hpn, hpc, -, hup⟩ := hp
  have hmem : ∀ x, x ∈ (plug (join d A' a B') (⟨d, p, C⟩ :: k)).toList ↔
      x = a ∨ x = p ∨ x ∈ A'.toList ∨ x ∈ B'.toList ∨ x ∈ C.toList ∨ x ∈ pathList k := fun x => by
    rw [parentList_perm.mem_iff]
    simp only [List.mem_cons, List.mem_append]
  have hnp := parentList_perm.nodup_iff.mp hn
  have hside : (if L.child .left p = some a then Side.left else Side.right) = d := by
    cases d with
    | left => exact if_pos (hpn.trans (root?_join ..))
    | right =>
        refine if_neg fun he => ?_
        have haC : a ∈ C.toList := root?_mem (hpc.symm.trans he)
        have := (List.nodup_cons.mp hnp).1
        simp [haC] at this
  cases k with
  | nil =>
      have hup : L.up p = none := hup
      have ht : splayTurn L a p = rotate L d a p none := by
        unfold splayTurn
        rw [hup]
        dsimp only
        rw [hside]
      obtain ⟨X, Y, hX⟩ := hnode A' (join d B' p C)
      refine ⟨X, Y, [], ?_, ?_, le_rfl, fun x hx => ?_⟩
      · rw [ht, ← hX]
        refine focus_rotate ?_ h
        simpa only [pathList, List.append_nil] using hnp
      · rw [← hX]
        cases d <;> simp [toList_plug, before, after, join, toList]
      · have hroot := fun x => root?_mem (t := B') (a := x)
        have hnb := ((rep_join d).mp hr).2.2.1
        rw [hmem] at hx
        rw [ht]
        grind
  | cons f k =>
      obtain ⟨e, g, D⟩ := f
      have hnt := turnList_perm.nodup_iff.mp hn
      have har := replaceTop_around hnt h
      have hoff := replaceTop_off (L := L) (n := a) (g := g) (d := d) (k := k) hup.2.2.2.2.up_eq
      have hroot := fun x => root?_mem (t := B') (a := x)
      have hrootA := fun x => root?_mem (t := A') (a := x)
      have hrootC := fun x => root?_mem (t := C) (a := x)
      have hup' : L.up p = some g := hup.1
      rcases Side.eq_or_flip d e with rfl | rfl
      · have ht : splayTurn L a p = zigZigBelow (replaceTop L e a g) e a p g := by
          unfold splayTurn
          rw [hup']
          dsimp only
          rw [hside, if_pos hup.2.1, zigZig_eq]
        obtain ⟨X, Y, hX⟩ := hnode A' (join e B' p (join e C g D))
        refine ⟨X, Y, k, ?_, ?_, Nat.le_succ _, fun x hx => ?_⟩
        · rw [ht, ← hX]
          exact focus_zigZig hnt har
        · rw [← hX]
          cases e <;> simp [toList_plug, before, after, join, toList]
        · rw [hmem] at hx
          simp only [pathList, List.mem_cons, List.mem_append, not_or] at hx
          have hx' := hoff x (by simp [hx])
          have hnb := har.far
          have hpc := har.parent
          rw [ht]
          grind
      · have ht : splayTurn L a p = zigZagBelow (replaceTop L d a g) d a p g := by
          unfold splayTurn
          rw [hup']
          dsimp only
          rw [hside, if_neg ?_, zigZag_eq]
          intro he
          have hpD : p ∈ D.toList :=
            root?_mem (hup.2.2.1.symm.trans ((congrArg (L.child · g) d.flip_flip).trans he))
          have hnot := (List.nodup_cons.mp hnp).2
          simp [pathList, hpD] at hnot
        obtain ⟨X, Y, hX⟩ := hnode (join d.flip A' g D) (join d B' p C)
        refine ⟨X, Y, k, ?_, ?_, Nat.le_succ _, fun x hx => ?_⟩
        · rw [ht, ← hX]
          exact focus_zigZag hnt har
        · rw [← hX]
          cases d <;> simp [toList_plug, before, after, join, toList, Side.flip]
        · rw [hmem] at hx
          simp only [pathList, List.mem_cons, List.mem_append, not_or] at hx
          have hx' := hoff x (by simp [hx])
          have hna := har.near
          have hnb := har.far
          rw [ht]
          grind

/-- `splay` makes its node the root of the tree it is in. -/
theorem splay_focus {fuel : Nat} (hn : (plug (node A n B) k).toList.Nodup)
    (h : Focus L (node A n B) k) (hf : k.length < fuel) :
    ∃ L' X Y, splay fuel L n = .ok L' ∧ Rep L' (node X n Y) none ∧
      (node X n Y).toList = (plug (node A n B) k).toList ∧
      AgreeOff (plug (node A n B) k).toList L L' := by
  induction fuel generalizing L A B k with
  | zero => exact absurd hf (Nat.not_lt_zero _)
  | succ fuel ih =>
      obtain ⟨u, hr, hh⟩ := id h
      have hup : L.up n = k.head?.map (·.elem) := (hr.up_root rfl).trans hh.up_eq
      cases k with
      | nil =>
          refine ⟨L, A, B, ?_, focus_nil.mp h, rfl, fun x _ => ⟨fun _ => rfl, rfl⟩⟩
          unfold splay
          rw [hup]
          rfl
      | cons f k =>
          obtain ⟨A', B', k', h', hl, hlen, hoff⟩ := splayTurn_focus hn h
          have hlt : k'.length < fuel := by
            rw [List.length_cons] at hf
            omega
          obtain ⟨L', X, Y, hs, hrep, hlist, hoff'⟩ := ih (hl ▸ hn) h' hlt
          refine ⟨L', X, Y, ?_, hrep, hlist.trans hl, fun x hx => ?_⟩
          · unfold splay
            rw [hup]
            exact hs
          · obtain ⟨hc, hu⟩ := hoff x hx
            obtain ⟨hc', hu'⟩ := hoff' x (hl ▸ hx)
            exact ⟨fun d => (hc' d).trans (hc d), hu'.trans hu⟩

/-! ## Down one side -/

omit [DecidableEq α] in
/-- The loop down the side `d` ends at the outermost element of that side. -/
theorem farthest_focus {fuel : Nat} (h : Focus L t k) (ht : t.root? = some n)
    (hf : t.toList.length ≤ fuel) :
    ∃ a A k', farthest d fuel L n = .ok a ∧ Focus L (join d leaf a A) (k' ++ k) ∧
      plug (join d leaf a A) (k' ++ k) = plug t k ∧ ∀ f ∈ k', f.side = d := by
  induction fuel generalizing t n k with
  | zero =>
      have := List.length_pos_of_mem (root?_mem ht)
      omega
  | succ fuel ih =>
      obtain ⟨l, a, r, rfl⟩ := exists_join (t := t) d fun he => by rw [he] at ht; cases ht
      rw [root?_join] at ht
      cases ht
      have hl := focus_join.mp h
      obtain ⟨u, hr, -⟩ := h
      have hchild := ((rep_join d).mp hr).2.1
      cases l with
      | leaf =>
          refine ⟨n, r, [], ?_, focus_join.mpr hl, rfl, fun f hf => absurd hf List.not_mem_nil⟩
          unfold farthest
          rw [hchild]
          rfl
      | node l b r' =>
          have hlen : (node l b r').toList.length ≤ fuel := by
            rw [(join_perm d _ n r).length_eq, List.length_cons, List.length_append] at hf
            omega
          obtain ⟨c, A, k', hfar, hfoc, hplug, hside⟩ := ih hl rfl hlen
          refine ⟨c, A, k' ++ [⟨d, n, r⟩], ?_, ?_, ?_, fun f hf => ?_⟩
          · unfold farthest
            rw [hchild]
            exact hfar
          · rw [List.append_assoc]
            exact hfoc
          · rw [List.append_assoc]
            exact hplug
          · rcases List.mem_append.mp hf with hf | hf
            · exact hside f hf
            · rw [List.mem_singleton.mp hf]

end Ross

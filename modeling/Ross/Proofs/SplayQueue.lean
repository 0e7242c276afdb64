import Ross.Proofs.SignatureOrders
import Ross.Proofs.SplayTree

/-!
# The priority queue as a set

The splay tree behaves as the set of the events in it: whatever is enqueued,
dequeued and deleted, the pointers form a search tree of the events present,
`least` is its leftmost node, and no call stops with an error.
-/

namespace Ross

open LinkedTree BinTree

variable {T : Type} [TwStime T]

/-! ## The order -/

/-- The key whose order is that of `tw_pq_compare_less_than_rand`. -/
def pqKey (e : TwEvent T) : TwEventSig T ×ₗ Nat ×ₗ Nat :=
  toLex (e.sig, toLex (e.eventId, e.sendPe))

theorem pqKey_lt {n e : TwEvent T} : pqKey n < pqKey e ↔
    n.sig < e.sig ∨ n.sig = e.sig ∧
      (n.eventId < e.eventId ∨ n.eventId = e.eventId ∧ n.sendPe < e.sendPe) := by
  simp only [pqKey, Prod.Lex.toLex_lt_toLex]

theorem pqCompareLessThanRand_eq (n e : TwEvent T) :
    pqCompareLessThanRand n e = decideBy (twEventSigComparePtr n.sig e.sig)
      (decideById n.eventId e.eventId n.sendPe e.sendPe) := rfl

/-- Events with different keys are compared without an error. -/
theorem pqCompareLessThanRand_ok {n e : TwEvent T} (h : pqKey n ≠ pqKey e) :
    pqCompareLessThanRand n e = .ok (decide (pqKey n < pqKey e)) := by
  rw [pqCompareLessThanRand_eq]
  exact decideBy_ok h

/-- An event in memory holds what the queue compares. -/
structure PqEvent.Holds (a : PqEvent T) (e : TwEvent T) : Prop where
  recvTs : a.recvTs = e.sig.recvTs
  sig : a.sig.sig = e.sig
  eventId : a.eventId = e.eventId
  sendPe : a.sendPe = e.sendPe

omit [TwStime T] in
theorem PqEvent.Holds.recvTs_sig {a : PqEvent T} {e : TwEvent T} (h : a.Holds e) :
    a.recvTs = a.sig.recvTs := by
  rw [h.recvTs, ← h.sig]
  rfl

/-- The queue compares the events as they are in memory. -/
theorem PqEvent.Holds.lessThanRand {a b : PqEvent T} {n e : TwEvent T} (hn : a.Holds n)
    (he : b.Holds e) : a.lessThanRand b = pqCompareLessThanRand n e := by
  rw [PqEvent.lessThanRand_eq hn.recvTs_sig he.recvTs_sig, SigBuffer.comparePtr_eq, hn.sig, he.sig,
    hn.eventId, he.eventId, hn.sendPe, he.sendPe, pqCompareLessThanRand_eq]

/-- The order of the events in the queue. -/
def PqSorted (l : List (TwEvent T)) : Prop := l.Pairwise fun a b => pqKey a < pqKey b

theorem PqSorted.nodup {l : List (TwEvent T)} (h : PqSorted l) : l.Nodup :=
  h.imp fun hlt he => (he ▸ hlt).false

/-! ## What the queue holds -/

namespace SplayTree

/-- The queue holds the events `l`, in this order. -/
structure Holds (st : SplayTree T) (l : List (TwEvent T)) : Prop where
  tree : ∃ t, Rep st.links t none ∧ st.root = t.root? ∧ t.toList = l
  sorted : PqSorted l
  least : st.least = l.head?
  nitems : st.nitems = l.length

variable {st : SplayTree T} {L : Links (TwEvent T)} {A B t : BinTree (TwEvent T)}
  {k : List (Frame (TwEvent T))} {n e r : TwEvent T} {l : List (TwEvent T)} {fuel : Nat}

theorem holds_create : Holds (create : SplayTree T) [] :=
  ⟨⟨.leaf, trivial, rfl, rfl⟩, .nil, rfl, rfl⟩

/-! ## `tw_pq_enqueue` -/

/-- Where the loop of `tw_pq_enqueue` hangs the new event. -/
structure Inserted (st st' : SplayTree T) (e : TwEvent T) (t : BinTree (TwEvent T))
    (k k' : List (Frame (TwEvent T))) : Prop where
  focus : Focus st'.links (node leaf e leaf) k'
  split : ∃ l₁ l₂, t.toList = l₁ ++ l₂ ∧ before k' = before k ++ l₁ ∧ after k' = l₂ ++ after k ∧
    (∀ x ∈ l₁, pqKey x < pqKey e) ∧ ∀ x ∈ l₂, pqKey e < pqKey x
  least : st'.least = (plug (node leaf e leaf) k').toList.head?
  nitems : st'.nitems = st.nitems

theorem focus_insert {f : Frame (TwEvent T)} (h : Focus L leaf (f :: k))
    (hn : (pathList (f :: k)).Nodup) (he : e ∉ pathList (f :: k)) (hc : ∀ d, L.child d e = none) :
    Focus ((L.setChild f.side f.elem (some e)).setUp e (some f.elem)) (node leaf e leaf)
      (f :: k) := by
  obtain ⟨u, -, hh⟩ := h
  have hr : Rep L (node leaf e leaf) (L.up e) := ⟨rfl, hc _, hc _, trivial, trivial⟩
  refine focus_replace (t := node leaf e leaf) hr hh ?_
  exact List.nodup_cons.mpr ⟨he, hn⟩

theorem Inserted.right {st' : SplayTree T} {k' : List (Frame (TwEvent T))}
    (h : Inserted st st' e B (⟨.right, n, A⟩ :: k) k')
    (hbelow : ∀ x ∈ A.toList ++ [n], pqKey x < pqKey e) :
    Inserted st st' e (node A n B) k k' := by
  obtain ⟨hfoc, ⟨l₁, l₂, hsplit, hbef, haft, h₁, h₂⟩, hleast, hni⟩ := h
  refine ⟨hfoc, ⟨(A.toList ++ [n]) ++ l₁, l₂, ?_, ?_, haft, fun x hx => ?_, h₂⟩, hleast, hni⟩
  · show A.toList ++ n :: B.toList = _
    rw [hsplit]
    simp
  · rw [hbef]
    simp [before]
  · rcases List.mem_append.mp hx with hx | hx
    · exact hbelow x hx
    · exact h₁ x hx

theorem Inserted.left {st' : SplayTree T} {k' : List (Frame (TwEvent T))}
    (h : Inserted st st' e A (⟨.left, n, B⟩ :: k) k')
    (habove : ∀ x ∈ n :: B.toList, pqKey e < pqKey x) :
    Inserted st st' e (node A n B) k k' := by
  obtain ⟨hfoc, ⟨l₁, l₂, hsplit, hbef, haft, h₁, h₂⟩, hleast, hni⟩ := h
  refine ⟨hfoc, ⟨l₁, l₂ ++ n :: B.toList, ?_, ?_, ?_, h₁, fun x hx => ?_⟩, hleast, hni⟩
  · show A.toList ++ n :: B.toList = _
    rw [hsplit, List.append_assoc]
  · rw [hbef]
    simp [before]
  · rw [haft]
    simp [after]
  · rcases List.mem_append.mp hx with hx | hx
    · exact h₂ x hx
    · exact habove x hx

/-- The new event at an empty place. -/
theorem Inserted.atLeaf {f : Frame (TwEvent T)} (h : Focus st.links leaf (f :: k))
    (hn : (plug leaf (f :: k)).toList.Nodup) (he : e ∉ (plug leaf (f :: k)).toList)
    (hc : ∀ d, st.links.child d e = none) {least : Option (TwEvent T)}
    (hl : least = (plug (node leaf e leaf) (f :: k)).toList.head?) :
    Inserted st { st with
      least, links := (st.links.setChild f.side f.elem (some e)).setUp e (some f.elem) }
      e leaf (f :: k) (f :: k) := by
  have hp := plug_perm leaf (f :: k)
  refine ⟨focus_insert h (hp.nodup_iff.mp hn) (fun hx => he (hp.mem_iff.mpr hx)) hc,
    ⟨[], [], rfl, (List.append_nil _).symm, rfl, ?_, ?_⟩, hl, rfl⟩
  · exact fun x hx => absurd hx List.not_mem_nil
  · exact fun x hx => absurd hx List.not_mem_nil

variable (st) in
theorem insertBelow_inserted (h : Focus st.links t k) (ht : t.root? = some n)
    (hf : t.toList.length ≤ fuel) (hn : (plug t k).toList.Nodup) (he : e ∉ (plug t k).toList)
    (hs : PqSorted t.toList) (hne : ∀ x ∈ t.toList, pqKey x ≠ pqKey e)
    (hc : ∀ d, st.links.child d e = none) (hl : st.least = (plug t k).toList.head?) :
    ∃ st' k', st.insertBelow fuel n e = .ok st' ∧ Inserted st st' e t k k' := by
  induction fuel generalizing t k n with
  | zero =>
      have := List.length_pos_of_mem (root?_mem ht)
      omega
  | succ fuel ih =>
      cases t with
      | leaf => cases ht
      | node A a B =>
          cases ht
          have hcmp := pqCompareLessThanRand_ok
            (hne n (List.mem_append_right _ List.mem_cons_self))
          obtain ⟨hsA, hsB, hAB⟩ := List.pairwise_append.mp hs
          obtain ⟨hnB, hsB⟩ := List.pairwise_cons.mp hsB
          have hlen : (node A n B).toList.length = A.toList.length + (B.toList.length + 1) := by
            rw [toList, List.length_append, List.length_cons]
          have hrep := h
          obtain ⟨u, hr, -⟩ := hrep
          by_cases hlt : pqKey n < pqKey e
          · have hright : Focus st.links B (⟨.right, n, A⟩ :: k) :=
              focus_join (d := .right).mp h
            have hbelow : ∀ x ∈ A.toList ++ [n], pqKey x < pqKey e := by
              intro x hx
              rcases List.mem_append.mp hx with hx | hx
              · exact (hAB x hx n List.mem_cons_self).trans hlt
              · rw [List.mem_singleton.mp hx]
                exact hlt
            unfold insertBelow
            rw [hcmp, decide_eq_true hlt]
            dsimp only
            rw [hr.2.2.1]
            cases B with
            | leaf =>
                refine ⟨_, _, rfl, (Inserted.atLeaf hright hn he hc ?_).right hbelow⟩
                have hpos : before (⟨.right, n, A⟩ :: k) ≠ [] := by simp [before]
                rw [toList_plug, List.head?_append_of_ne_nil _ hpos, hl]
                show (plug leaf (⟨.right, n, A⟩ :: k)).toList.head? = _
                rw [toList_plug, List.head?_append_of_ne_nil _ hpos]
            | node B₁ b B₂ =>
                obtain ⟨st', k', hins, hi⟩ := ih hright rfl (by omega) hn he hsB
                  (fun x hx => hne x (List.mem_append_right _ (List.mem_cons_of_mem n hx))) hl
                exact ⟨st', k', hins, hi.right hbelow⟩
          · have hgt : pqKey e < pqKey n := (not_lt.mp hlt).lt_of_ne
              (hne n (List.mem_append_right _ List.mem_cons_self)).symm
            have hleft : Focus st.links A (⟨.left, n, B⟩ :: k) := focus_join (d := .left).mp h
            have habove : ∀ x ∈ n :: B.toList, pqKey e < pqKey x := by
              intro x hx
              rcases List.mem_cons.mp hx with rfl | hx
              · exact hgt
              · exact hgt.trans (hnB x hx)
            unfold insertBelow
            rw [hcmp, decide_eq_false hlt]
            dsimp only
            rw [hr.2.1]
            cases A with
            | leaf =>
                refine ⟨_, _, rfl, (Inserted.atLeaf hleft hn he hc ?_).left habove⟩
                have hbef : before (⟨.left, n, B⟩ :: k) = before k := List.append_nil _
                have hold : (plug (node leaf n B) k).toList =
                    before k ++ (n :: (B.toList ++ after k)) := by
                  rw [toList_plug]
                  rfl
                rw [toList_plug, hbef]
                rw [hold] at hl hn
                rw [hl]
                cases hk : before k with
                | nil => exact if_pos rfl
                | cons x xs =>
                    rw [hk] at hn
                    refine if_neg fun hx => ?_
                    have hxn : x = n := Option.some.inj hx
                    have := (List.nodup_cons.mp hn).1
                    simp [hxn] at this
            | node A₁ b A₂ =>
                obtain ⟨st', k', hins, hi⟩ := ih hleft rfl (by omega) hn he hsA
                  (fun x hx => hne x (List.mem_append_left _ hx)) hl
                exact ⟨st', k', hins, hi.left habove⟩

/-- `tw_pq_enqueue` puts the event at its place in the order. -/
theorem enqueue_holds (h : Holds st l) (hne : ∀ x ∈ l, pqKey x ≠ pqKey e)
    (hf : l.length < fuel) (hlen : l.length + 1 < 2 ^ 32) :
    ∃ st' l₁ l₂, st.enqueue fuel e = .ok st' ∧ l = l₁ ++ l₂ ∧ Holds st' (l₁ ++ e :: l₂) := by
  obtain ⟨⟨t, hrep, hroot, rfl⟩, hsorted, hleast, hni⟩ := h
  have he : e ∉ t.toList := fun hx => hne e hx rfl
  have hni' : (st.nitems + 1) % 2 ^ 32 = t.toList.length + 1 := by
    rw [hni]
    exact Nat.mod_eq_of_lt hlen
  unfold enqueue
  dsimp only
  rw [hroot]
  cases ht : t.root? with
  | none =>
      have htl := root?_eq_none.mp ht
      refine ⟨_, [], [], rfl, htl, ⟨⟨node leaf e leaf, ?_, rfl, rfl⟩, ?_, rfl, ?_⟩⟩
      · exact ⟨if_pos rfl, by simp [root?], by simp [root?], trivial, trivial⟩
      · exact List.pairwise_singleton ..
      · show (st.nitems + 1) % 2 ^ 32 = 1
        rw [hni', htl]
        rfl
  | some n =>
      have hfoc : Focus ((st.links.setChild .right e none).setChild .left e none) t [] := by
        refine focus_nil.mpr (hrep.same hsorted.nodup (fun x hx d => ?_) fun x _ => rfl)
        have hxe : x ≠ e := fun hxe => he (hxe ▸ hx)
        simp [hxe]
      have hchild : ∀ d, ((st.links.setChild .right e none).setChild .left e none).child d e =
          none := by
        intro d
        cases d <;> simp
      obtain ⟨st', k', hins, hfoc', ⟨l₁, l₂, hsplit, hbef, haft, h₁, h₂⟩, hleast', hni''⟩ :=
        insertBelow_inserted ({ st with
          nitems := (st.nitems + 1) % 2 ^ 32
          maxSize := if st.maxSize < (st.nitems + 1) % 2 ^ 32 then (st.nitems + 1) % 2 ^ 32
            else st.maxSize
          links := (st.links.setChild .right e none).setChild .left e none } : SplayTree T)
          hfoc ht hf.le hsorted.nodup he hsorted hne hchild hleast
      have haft : after k' = l₂ := haft.trans (List.append_nil l₂)
      have hlist : (plug (node leaf e leaf) k').toList = l₁ ++ e :: l₂ := by
        rw [toList_plug, hbef, haft]
        rfl
      have hsorted' : PqSorted (l₁ ++ e :: l₂) := by
        unfold PqSorted at hsorted
        rw [hsplit] at hsorted
        obtain ⟨hs₁, hs₂, h₁₂⟩ := List.pairwise_append.mp hsorted
        refine List.pairwise_append.mpr ⟨hs₁, List.pairwise_cons.mpr ⟨h₂, hs₂⟩, fun x hx y hy => ?_⟩
        rcases List.mem_cons.mp hy with rfl | hy
        · exact h₁ x hx
        · exact h₁₂ x hx y hy
      have hlen' : (l₁ ++ e :: l₂).length = t.toList.length + 1 := by
        rw [hsplit, List.length_append, List.length_append, List.length_cons]
        rfl
      have hk : k'.length < fuel := by
        have := length_le_plug (node leaf e leaf) k'
        rw [hlist, hlen'] at this
        have h1 : (node leaf e leaf).toList.length = 1 := rfl
        omega
      obtain ⟨L', X, Y, hsplay, hrep', hlist', -⟩ :=
        splay_focus (hlist ▸ hsorted'.nodup) hfoc' hk
      refine ⟨{ st' with links := L', root := some e }, l₁, l₂, ?_, hsplit,
        ⟨node X e Y, hrep', rfl, hlist'.trans hlist⟩, hsorted', ?_, ?_⟩
      · rw [hroot, ht] at hins
        dsimp only
        rw [hins]
        dsimp only
        rw [hsplay]
      · rw [← hlist]
        exact hleast'
      · rw [hlen']
        exact hni''.trans hni'

/-! ## `tw_pq_dequeue` -/

/-- Clearing the pointers of an event that is not in the tree. -/
theorem rep_clear (h : Rep L t none) (hn : t.toList.Nodup) (hr : r ∉ t.toList) :
    Rep (clear L r) t none := by
  refine h.same hn (fun x hx d => ?_) fun x hx => ?_ <;>
  · have hxr : x ≠ r := fun he => hr (he ▸ hx)
    simp [clear, hxr]

section

omit [TwStime T]

/-- The loop to the leftmost node, from a subtree before which nothing stands. -/
theorem farthest_left (h : Focus L t k) (ht : t.root? = some n) (hf : t.toList.length ≤ fuel)
    (hb : before k = []) :
    ∃ a, farthest .left fuel L n = .ok a ∧ (plug t k).toList.head? = some a := by
  obtain ⟨a, A, k', hfar, -, hplug, hside⟩ := farthest_focus (d := .left) h ht hf
  refine ⟨a, hfar, ?_⟩
  rw [← hplug, toList_plug, before_left hside, hb]
  rfl

/-- The leftmost node has no left child, and it is on no right side. -/
theorem split_head {a : TwEvent T} (h : (plug (node A a B) k).toList = a :: l) (ha : a ∉ l) :
    A = leaf ∧ before k = [] ∧ B.toList ++ after k = l := by
  rw [toList_plug] at h
  have hsplit : [] ++ a :: l = (before k ++ A.toList) ++ a :: (B.toList ++ after k) := by
    rw [List.nil_append, ← h]
    simp [toList]
  obtain ⟨hnil, -, hl⟩ := (List.append_cons_inj_of_notMem List.not_mem_nil ha).mp hsplit
  obtain ⟨hk, hA⟩ := List.append_eq_nil_iff.mp hnil.symm
  refine ⟨?_, hk, hl.symm⟩
  cases A with
  | leaf => rfl
  | node _ _ _ => simp [toList] at hA

end

/-- What `tw_pq_dequeue` leaves: its pointers form the tree of the other events. -/
theorem holds_after {t : BinTree (TwEvent T)} {a : TwEvent T} (hrep : Rep L t none)
    (hl : t.toList = l) (hs : PqSorted l) (ha : a ∉ l) (hroot : st.root = t.root?)
    (hleast : st.least = l.head?) (hni : st.nitems = l.length) (hL : st.links = clear L a) :
    Holds st l := by
  refine ⟨⟨t, ?_, hroot, hl⟩, hs, hleast, hni⟩
  rw [hL]
  exact rep_clear hrep (hl ▸ hs.nodup) (hl ▸ ha)

/-- `tw_pq_dequeue` takes the least event. -/
theorem dequeue_holds {a : TwEvent T} (h : Holds st (a :: l)) (hf : l.length < fuel) :
    ∃ st', st.dequeue fuel = .ok (some a, st') ∧ Holds st' l := by
  obtain ⟨⟨t, hrep, hroot, hlist⟩, hsorted, hleast, hni⟩ := h
  obtain ⟨hal, hnl⟩ := List.nodup_cons.mp hsorted.nodup
  have hsl : PqSorted l := (List.pairwise_cons.mp hsorted).2
  obtain ⟨A, B, k, rfl⟩ := exists_plug (t := t) (x := a) (hlist ▸ List.mem_cons_self)
  obtain ⟨rfl, hbef, hBl⟩ := split_head hlist hal
  have hplug : (plug B k).toList = l := by
    rw [toList_plug, hbef]
    exact hBl
  obtain ⟨u, ⟨hup, -, hright, -, hB⟩, hole⟩ := focus_plug.mpr hrep
  have hnB : (B.toList ++ pathList k).Nodup := (plug_perm B k).nodup_iff.mp (hplug ▸ hnl)
  have hlenB : B.toList.length ≤ fuel := by
    have := length_le_plug B k
    rw [hplug] at this
    omega
  have hn1 : st.nitems - 1 = l.length := by
    rw [hni]
    rfl
  have hn0 : st.nitems ≠ 0 := by
    rw [hni]
    exact Nat.succ_ne_zero _
  unfold dequeue
  rw [if_neg hn0, hleast]
  dsimp only [List.head?_cons]
  rw [hup, hright, hole.up_eq]
  cases k with
  | nil =>
      cases hBr : B.root? with
      | none =>
          have hl : l = [] := by rw [← hplug]; exact root?_eq_none.mp hBr
          refine ⟨_, rfl, ⟨⟨leaf, trivial, rfl, hl.symm⟩, hsl, ?_, hn1⟩⟩
          rw [hl]
          rfl
      | some tmp =>
          have hrep' : Rep (st.links.setUp tmp none) B none := by
            have := hB.reparent none hnB.of_append_left
            rwa [hBr] at this
          obtain ⟨b, hfar, hhead⟩ := farthest_left (focus_nil.mpr hrep') hBr hlenB rfl
          dsimp only [List.head?_nil, Option.map_none]
          rw [hfar]
          exact ⟨_, rfl, holds_after hrep' hplug hsl hal hBr.symm (hplug ▸ hhead.symm) hn1 rfl⟩
  | cons f k =>
      have hside : f.side = .left := by
        cases hs : f.side with
        | left => rfl
        | right =>
            rw [before, hs] at hbef
            simp at hbef
      have hroot' : st.root = (plug B (f :: k)).root? :=
        hroot.trans (root?_plug (.inl (List.cons_ne_nil f k)))
      cases hBr : B.root? with
      | none =>
          have hBn := root?_eq_none.mp hBr
          have hfoc : Focus (st.links.setChild f.side f.elem B.root?) B (f :: k) := by
            refine focus_hang ?_ hole hnB
            cases B with
            | leaf => trivial
            | node _ _ _ => cases hBr
          rw [hBr, hside] at hfoc
          refine ⟨_, rfl, holds_after (focus_plug.mp hfoc) hplug hsl hal hroot' ?_ hn1 rfl⟩
          rw [← hBl, hBn, after, hside]
          rfl
      | some tmp =>
          have hfoc : Focus ((st.links.setChild .left f.elem (some tmp)).setUp tmp (some f.elem))
              B (f :: k) := by
            have := focus_replace hB hole hnB
            rwa [hBr, hside] at this
          obtain ⟨b, hfar, hhead⟩ := farthest_left hfoc hBr hlenB hbef
          dsimp only [List.head?_cons, Option.map_some]
          rw [hfar]
          exact ⟨_, rfl, holds_after (focus_plug.mp hfoc) hplug hsl hal hroot' (hplug ▸ hhead.symm)
            hn1 rfl⟩

/-! ## `tw_pq_delete_any` -/

section

omit [TwStime T]

/-- Where a list without repetitions ends. -/
theorem split_last {l l₁ l₂ : List (TwEvent T)} {a : TwEvent T} (h : l ++ [a] = l₁ ++ a :: l₂)
    (hn : (l ++ [a]).Nodup) : l₂ = [] := by
  have ha : a ∉ l := (List.nodup_cons.mp (List.perm_middle.nodup_iff.mp hn)).1 ∘
    List.mem_append_left []
  exact ((List.append_cons_inj_of_notMem ha List.not_mem_nil).mp h).2.2.symm

/-- A path off which the pointers stay. -/
theorem hole_agree {L L' : Links (TwEvent T)} {l : List (TwEvent T)} {p u : Option (TwEvent T)}
    (h : Hole L p u k) (hn : (pathList k).Nodup) (ha : AgreeOff l L L')
    (hl : ∀ x ∈ pathList k, x ∉ l) : Hole L' p u k := by
  refine h.congr hn (fun x hx d _ => (ha x (hl x hx)).1 d) (fun f hf => ?_) fun x hx => ?_
  · obtain ⟨hp, hmem⟩ := h.head_child hf
    exact ((ha f.elem (hl _ hmem)).1 _).trans hp
  · exact (ha x (hl x hx)).2

end

/-- The maximum of a tree brought to its root. -/
theorem splay_farthest (h : Rep L A none) (hA : A.root? = some n) (hn : A.toList.Nodup)
    (hf : A.toList.length ≤ fuel) :
    ∃ m L' X, farthest .right fuel L n = .ok m ∧ splay fuel L m = .ok L' ∧
      Rep L' (node X m leaf) none ∧ X.toList ++ [m] = A.toList ∧ AgreeOff A.toList L L' := by
  obtain ⟨m, X, k, hfar, hfoc, hplug, hside⟩ :=
    farthest_focus (d := .right) (focus_nil.mpr h) hA hf
  have hfoc : Focus L (node X m leaf) (k ++ []) := hfoc
  have hplug : plug (node X m leaf) (k ++ []) = A := hplug
  have hk : (k ++ []).length < fuel := by
    have hlen := length_le_plug (node X m leaf) (k ++ [])
    have hpos : 0 < (node X m leaf).toList.length := List.length_pos_of_mem (root?_mem rfl)
    rw [hplug] at hlen
    omega
  obtain ⟨L', X', Y, hsplay, hrep, hlist, hoff⟩ := splay_focus (hplug ▸ hn) hfoc hk
  have hlast : (before (k ++ []) ++ X.toList) ++ [m] = X'.toList ++ m :: Y.toList := by
    refine Eq.trans ?_ hlist.symm
    rw [toList_plug, after_right hside]
    simp [toList, after]
  have hYl : Y.toList = [] := by
    refine split_last hlast ?_
    have hn' := hn
    rw [← hplug, ← hlist] at hn'
    rw [hlast]
    exact hn'
  have hY : Y = leaf := by
    cases Y with
    | leaf => rfl
    | node _ _ _ => simp [toList] at hYl
  subst hY
  rw [hplug] at hlist hoff
  exact ⟨m, L', X', hfar, hsplay, hrep, hlist, hoff⟩

/-- The subtrees of `r` become one tree with the parent of `r`. -/
theorem joinBelow_rep {u : Option (TwEvent T)} (h : Rep L (node A r B) u)
    (hn : (node A r B).toList.Nodup) (hf : (node A r B).toList.length ≤ fuel) :
    ∃ C L', joinBelow fuel L r = .ok (C.root?, L') ∧ C.toList = A.toList ++ B.toList ∧
      Rep L' C u ∧ AgreeOff (A.toList ++ B.toList) L L' := by
  obtain ⟨hup, hleft, hright, hA, hB⟩ := h
  obtain ⟨hnA, hnrB, hdis⟩ := List.nodup_append.mp hn
  obtain ⟨hrB, hnB⟩ := List.nodup_cons.mp hnrB
  have hrA : r ∉ A.toList := fun hr => hdis r hr r List.mem_cons_self rfl
  unfold joinBelow
  rw [hleft, hright]
  cases hAr : A.root? with
  | none =>
      have hAl := root?_eq_none.mp hAr
      cases hBr : B.root? with
      | none =>
          refine ⟨leaf, L, rfl, ?_, trivial, fun x _ => ⟨fun _ => rfl, rfl⟩⟩
          rw [hAl, root?_eq_none.mp hBr]
          rfl
      | some tmp =>
          have hrep := hB.reparent (L.up r) hnB
          rw [hBr, hup] at hrep
          refine ⟨B, _, ?_, ?_, hrep, fun x hx => ⟨fun _ => rfl, ?_⟩⟩
          · rw [hBr, hup]
            rfl
          · rw [hAl]
            rfl
          · have hne : x ≠ tmp := fun he =>
              hx (List.mem_append_right _ (he ▸ root?_mem hBr))
            exact if_neg hne
  | some n =>
      cases hBr : B.root? with
      | none =>
          have hrep := hA.reparent (L.up r) hnA
          rw [hAr, hup] at hrep
          refine ⟨A, _, ?_, ?_, hrep, fun x hx => ⟨fun _ => rfl, ?_⟩⟩
          · rw [hAr, hup]
            rfl
          · rw [root?_eq_none.mp hBr, List.append_nil]
          · have hne : x ≠ n := fun he => hx (List.mem_append_left _ (he ▸ root?_mem hAr))
            exact if_neg hne
      | some tmp =>
          have hnA' := root?_mem hAr
          have htB := root?_mem hBr
          have hlen : (node A r B).toList.length = A.toList.length + (B.toList.length + 1) := by
            rw [toList, List.length_append, List.length_cons]
          -- the left subtree alone, its maximum brought to the root
          have hcut : Rep (L.setUp n none) A none := by
            have := hA.reparent none hnA
            rwa [hAr] at this
          have hfA : A.toList.length ≤ fuel := by omega
          obtain ⟨m, L₁, X, hfar, hsplay, hrep, hlist, hoff⟩ := splay_farthest hcut hAr hnA hfA
          -- the right subtree below it
          have hoff₁ : AgreeOff A.toList L L₁ := by
            intro x hx
            obtain ⟨hc, hu⟩ := hoff x hx
            have hne : x ≠ n := fun he => hx (he ▸ hnA')
            exact ⟨hc, hu.trans (if_neg hne)⟩
          have hB₁ : Rep L₁ B (some r) := by
            have hxA : ∀ x ∈ B.toList, x ∉ A.toList := fun x hx hxA =>
              hdis x hxA x (List.mem_cons_of_mem r hx) rfl
            exact hB.same hnB (fun x hx => (hoff₁ x (hxA x hx)).1) fun x hx =>
              (hoff₁ x (hxA x hx)).2
          have hmA : m ∈ A.toList := by
            rw [← hlist]
            exact List.mem_append_right _ List.mem_cons_self
          have hroot : Focus L₁ (join .right leaf m X) [] := focus_nil.mpr hrep
          obtain ⟨w, -, hhole⟩ := focus_join.mp hroot
          have hperm : (B.toList ++ pathList [⟨.right, m, X⟩]).Perm (A.toList ++ B.toList) := by
            refine List.perm_append_comm.trans (List.Perm.append_right _ ?_)
            rw [← hlist, pathList, pathList, List.append_nil]
            exact (List.perm_append_singleton m X.toList).symm
          have hnAB : (A.toList ++ B.toList).Nodup :=
            List.nodup_append.mpr ⟨hnA, hnB, fun x hx y hy =>
              hdis x hx y (List.mem_cons_of_mem r hy)⟩
          have hjoin := focus_replace hB₁ hhole (hperm.nodup_iff.mpr hnAB)
          rw [hBr] at hjoin
          have hrep₂ : Rep _ (node X m B) none := focus_plug.mp hjoin
          have hlist₂ : (node X m B).toList = A.toList ++ B.toList := by
            rw [toList, ← hlist, List.append_assoc]
            rfl
          have hrt : r ≠ tmp := fun he => hrB (he ▸ htB)
          have hup₂ : ((L₁.setChild .right m (some tmp)).setUp tmp (some m)).up r = u := by
            rw [Links.setUp_up, if_neg hrt, Links.setChild_up, (hoff₁ r hrA).2, hup]
          refine ⟨node X m B, _, ?_, hlist₂, hrep₂.reparent u (hlist₂ ▸ hnAB), ?_⟩
          · dsimp only
            rw [hfar]
            dsimp only
            rw [hsplay]
            dsimp only
            rw [hup₂]
            rfl
          · intro x hx
            obtain ⟨hxA, hxB⟩ := not_or.mp (mt List.mem_append.mpr hx)
            have hxm : x ≠ m := fun he => hxA (he ▸ hmA)
            have hxt : x ≠ tmp := fun he => hxB (he ▸ htB)
            obtain ⟨hc, hu⟩ := hoff₁ x hxA
            simp [root?, Links.setUp?, hxm, hxt, hc, hu]

/-- `tw_pq_delete_any` takes exactly its argument. -/
theorem deleteAny_holds {l₁ l₂ : List (TwEvent T)} (h : Holds st (l₁ ++ r :: l₂))
    (hf : (l₁ ++ r :: l₂).length ≤ fuel) :
    ∃ st', st.deleteAny fuel r = .ok st' ∧ Holds st' (l₁ ++ l₂) := by
  cases l₁ with
  | nil =>
      have hlen : l₂.length < fuel := hf
      obtain ⟨st', hd, h'⟩ := dequeue_holds h hlen
      refine ⟨st', ?_, h'⟩
      unfold deleteAny
      rw [if_pos (show st.least = some r from h.least), hd]
  | cons x l₁ =>
      obtain ⟨⟨t, hrep, hroot, hlist⟩, hsorted, hleast, hni⟩ := h
      have hnodup := hsorted.nodup
      obtain ⟨A, B, k, rfl⟩ := exists_plug (t := t) (x := r)
        (hlist ▸ List.mem_append_right _ List.mem_cons_self)
      have hxr : st.least ≠ some r := by
        intro he
        have hxr : x = r := Option.some.inj (hleast.symm.trans he)
        exact (List.nodup_cons.mp hnodup).1
          (hxr ▸ List.mem_append_right _ List.mem_cons_self)
      have hn0 : st.nitems ≠ 0 := by
        rw [hni]
        exact Nat.succ_ne_zero _
      have hn1 : st.nitems - 1 = (x :: l₁ ++ l₂).length := by
        rw [hni]
        simp only [List.length_append, List.length_cons]
        omega
      have hsl : PqSorted (x :: l₁ ++ l₂) :=
        hsorted.sublist ((List.Sublist.refl _).append (List.sublist_cons_self _ _))
      have hsplit : (before k ++ A.toList) ++ r :: (B.toList ++ after k) = x :: l₁ ++ r :: l₂ := by
        rw [← hlist, toList_plug]
        simp [toList]
      have hn := hnodup
      rw [← hlist] at hn
      have hnk := (plug_perm _ k).nodup_iff.mp hn
      obtain ⟨hnt, hnk, hdis⟩ := List.nodup_append.mp hnk
      obtain ⟨u, hr, hole⟩ := focus_plug.mpr hrep
      have hlen : (node A r B).toList.length ≤ fuel := by
        have := length_le_plug (node A r B) k
        rw [hlist] at this
        omega
      obtain ⟨C, L, hjoin, hC, hrepC, hoff⟩ := joinBelow_rep hr hnt hlen
      have hAB : ∀ y ∈ A.toList ++ B.toList, y ∈ (node A r B).toList := by
        intro y hy
        rcases List.mem_append.mp hy with hy | hy
        · exact List.mem_append_left _ hy
        · exact List.mem_append_right _ (List.mem_cons_of_mem r hy)
      have hrC : r ∉ A.toList ++ B.toList := by
        obtain ⟨-, hnr, hd⟩ := List.nodup_append.mp hnt
        intro hy
        rcases List.mem_append.mp hy with hy | hy
        · exact hd r hy r List.mem_cons_self rfl
        · exact (List.nodup_cons.mp hnr).1 hy
      have hole' : Hole L (some r) u k :=
        hole_agree hole hnk hoff fun y hy hyA => hdis y (hAB y hyA) y hy rfl
      have hplug : (plug C k).toList = x :: l₁ ++ l₂ := by
        have hn' := hnodup
        rw [← hsplit] at hn'
        obtain ⟨-, hn₂, hd⟩ := List.nodup_append.mp hn'
        have hr₁ : r ∉ before k ++ A.toList := fun hy => hd r hy r List.mem_cons_self rfl
        obtain ⟨h₁, -, h₂⟩ :=
          (List.append_cons_inj_of_notMem hr₁ (List.nodup_cons.mp hn₂).1).mp hsplit
        rw [toList_plug, hC, ← h₁, ← h₂]
        simp only [List.append_assoc]
      have hrl : r ∉ x :: l₁ ++ l₂ := (List.nodup_cons.mp (List.perm_middle.nodup_iff.mp hnodup)).1
      have hup : L.up r = k.head?.map (·.elem) := by
        rw [(hoff r hrC).2, hr.1, hole.up_eq]
      unfold deleteAny
      rw [if_neg hxr, if_neg hn0]
      dsimp only
      rw [hjoin]
      dsimp only
      rw [hup]
      cases k with
      | nil =>
          have hu : u = none := hole
          rw [hu] at hrepC
          exact ⟨_, rfl, holds_after hrepC hplug hsl hrl rfl hleast hn1 rfl⟩
      | cons f k =>
          have hnC : (C.toList ++ pathList (f :: k)).Nodup := by
            exact (plug_perm C (f :: k)).nodup_iff.mp (hplug ▸ hsl.nodup)
          have hfoc := focus_hang (hole'.1 ▸ hrepC) hole' hnC
          have hside : (if L.child .left f.elem = some r then Side.left else Side.right) =
              f.side := by
            cases hs : f.side with
            | left => exact if_pos (hs ▸ hole'.2.1)
            | right =>
                have hsib : L.child .left f.elem = f.sibling.root? := by
                  have := hole'.2.2.1
                  rwa [hs] at this
                refine if_neg fun he => hdis r (root?_mem rfl) r ?_ rfl
                exact List.mem_cons_of_mem _ (List.mem_append_left _ (root?_mem (hsib ▸ he)))
          dsimp only [List.head?_cons, Option.map_some]
          rw [hside]
          cases hCr : C.root? with
          | none =>
              rw [hCr] at hfoc
              refine ⟨_, rfl, holds_after (focus_plug.mp hfoc) hplug hsl hrl ?_ hleast hn1 rfl⟩
              exact hroot.trans (root?_plug (.inl (List.cons_ne_nil f k)))
          | some c =>
              rw [hCr] at hfoc
              have hfoc := focus_join.mpr hfoc
              obtain ⟨X, Y, hnode⟩ : ∃ X Y, join f.side C f.elem f.sibling = node X f.elem Y := by
                cases f.side
                · exact ⟨_, _, rfl⟩
                · exact ⟨_, _, rfl⟩
              have hplug' : (plug (node X f.elem Y) k).toList = x :: l₁ ++ l₂ := by
                rw [← hnode]
                exact hplug
              have hkf : k.length < fuel := by
                have := length_le_plug C (f :: k)
                rw [hplug] at this
                simp only [List.length_append, List.length_cons] at this hf
                omega
              rw [hnode] at hfoc
              obtain ⟨L', X', Y', hsplay, hrep', hlist', -⟩ :=
                splay_focus (hplug' ▸ hsl.nodup) hfoc hkf
              dsimp only
              rw [hsplay]
              exact ⟨_, rfl, holds_after hrep' (hlist'.trans hplug') hsl hrl rfl hleast hn1 rfl⟩

end SplayTree

end Ross

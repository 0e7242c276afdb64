import Mathlib.Data.Finset.Card
import Mathlib.Order.Bounds.Basic
import Ross.Lib.Transition
import Ross.Proofs.SplayQueue

/-!
# The priority queue refines a set

The abstract queue is the set of the events in it.  Every call of the splay tree
does to its pointers what the abstract queue does to the set.
-/

namespace Ross

open LinkedTree BinTree Transition

variable {T : Type} [TwStime T]

/-- `tw_pq_compare_less_than_rand` finds `a` before `b`. -/
def PqLess (a b : TwEvent T) : Prop := pqCompareLessThanRand a b = .ok true

instance (a b : TwEvent T) : Decidable (PqLess a b) :=
  match h : pqCompareLessThanRand a b with
  | .ok true => isTrue h
  | .ok false => isFalse fun h' => by cases h.symm.trans h'
  | .error _ => isFalse fun h' => by cases h.symm.trans h'

theorem pqLess_iff {a b : TwEvent T} (h : pqKey a ≠ pqKey b) :
    PqLess a b ↔ pqKey a < pqKey b := by
  rw [PqLess, pqCompareLessThanRand_ok h, Except.ok.injEq, decide_eq_true_eq]

theorem pqLess_of_lt {a b : TwEvent T} (h : pqKey a < pqKey b) : PqLess a b :=
  (pqLess_iff h.ne).mpr h

theorem not_pqLess_self {a : TwEvent T} : ¬ PqLess a a := by
  simp [PqLess, pqCompareLessThanRand]

/-! ## The abstract queue -/

namespace SplayTree

/-- What a call does to the set of the events in the queue. -/
def PqCall.apply (s : Finset (TwEvent T)) : PqCall T → Finset (TwEvent T)
  | .enqueue e => insert e s
  | .dequeue => s.filter fun e => ∃ x ∈ s, PqLess x e
  | .deleteAny r => s.erase r

/-- The calls that the kernel makes when the queue holds the events `s`: the
events are buffers of the PE, of which `tw_eventq_alloc` allocates `cnt`, with
different `event_id` and `send_pe`, and an event to delete is in the queue. -/
def PqCall.Admitted (cnt : Fin (2 ^ 32)) (s : Finset (TwEvent T)) : PqCall T → Prop
  | .enqueue e => s.card < cnt ∧ ∀ x ∈ s, (x.eventId, x.sendPe) ≠ (e.eventId, e.sendPe)
  | .dequeue => True
  | .deleteAny r => r ∈ s

instance (cnt : Fin (2 ^ 32)) (s : Finset (TwEvent T)) :
    ∀ c : PqCall T, Decidable (c.Admitted cnt s)
  | .enqueue e => inferInstanceAs (Decidable (s.card < cnt ∧
      ∀ x ∈ s, (x.eventId, x.sendPe) ≠ (e.eventId, e.sendPe)))
  | .dequeue => isTrue trivial
  | .deleteAny r => inferInstanceAs (Decidable (r ∈ s))

/-- What a call returns when the queue holds the events `s`: `tw_pq_dequeue` the
minimum, and `NULL` exactly when there is none. -/
def PqCall.Returns (s : Finset (TwEvent T)) : PqCall T → Option (TwEvent T) → Prop
  | .dequeue, r => (r = none ↔ s = ∅) ∧ ∀ e, r = some e → e ∈ s ∧ ∀ x ∈ s, x ≠ e → PqLess e x
  | _, r => r = none

/-- The pointers, the counters and `least` are those of a search tree of the
events `s`. -/
structure Refines (st : SplayTree T) (s : Finset (TwEvent T)) : Prop where
  tree : ∃ t, Rep st.links t none ∧ st.root = t.root? ∧ st.least = t.toList.head? ∧
    t.toList.Pairwise PqLess ∧ t.toList.Nodup ∧ ∀ e, e ∈ t.toList ↔ e ∈ s
  up_root : ∀ e, st.root = some e → st.links.up e = none
  getSize : st.getSize = s.card
  minimum : s.Nonempty → IsLeast (TwEvent.sig '' s) st.minimumSig
  minimum_empty : s = ∅ → st.minimumSig = maxSig

/-- A call of the queue and of the abstract queue. -/
def pqStep (cnt : Fin (2 ^ 32)) (fuel : Nat) (q : SplayTree T × Finset (TwEvent T)) (c : PqCall T)
    (q' : SplayTree T × Finset (TwEvent T)) : Prop :=
  c.Admitted cnt q.2 ∧ (∃ r, q.1.call fuel c = .ok (r, q'.1)) ∧ q'.2 = c.apply q.2

theorem reachable_call {cnt : Fin (2 ^ 32)} {fuel : Nat} {st st' : SplayTree T}
    {s : Finset (TwEvent T)} {r : Option (TwEvent T)} (c : PqCall T)
    (h : Reachable (fun q => q = (create, ∅)) (pqStep cnt fuel) (st, s))
    (hc : c.Admitted cnt s) (hcall : st.call fuel c = .ok (r, st')) :
    Reachable (fun q => q = (create, ∅)) (pqStep cnt fuel) (st', c.apply s) :=
  .next h trivial ⟨hc, ⟨r, hcall⟩, rfl⟩

/-! ## The refinement -/

variable {st : SplayTree T} {s : Finset (TwEvent T)} {l : List (TwEvent T)} {cnt : Fin (2 ^ 32)}
  {fuel : Nat}

/-- The queue holds the events `s` in some order. -/
structure HoldsSet (st : SplayTree T) (s : Finset (TwEvent T)) (l : List (TwEvent T)) : Prop
    extends Holds st l where
  mem : ∀ e, e ∈ l ↔ e ∈ s
  ids : ∀ x ∈ s, ∀ y ∈ s, (x.eventId, x.sendPe) = (y.eventId, y.sendPe) → x = y

namespace HoldsSet

theorem length_eq (h : HoldsSet st s l) : l.length = s.card := by
  classical
  rw [← List.toFinset_card_of_nodup h.sorted.nodup]
  congr 1
  ext e
  rw [List.mem_toFinset, h.mem]

theorem nil_iff (h : HoldsSet st s l) : l = [] ↔ s = ∅ := by
  rw [← List.length_eq_zero_iff, h.length_eq, Finset.card_eq_zero]

/-- The abstract set of a queue determines what its fields are. -/
theorem refines (h : HoldsSet st s l) : Refines st s := by
  obtain ⟨t, hrep, hroot, hlist⟩ := h.tree
  have hleast := h.least
  refine ⟨⟨t, hrep, hroot, ?_, ?_, ?_, ?_⟩, ?_, ?_, ?_, ?_⟩
  · rw [hlist, hleast]
  · rw [hlist]
    exact h.sorted.imp pqLess_of_lt
  · rw [hlist]
    exact h.sorted.nodup
  · rw [hlist]
    exact h.mem
  · intro e he
    exact hrep.up_root (hroot.symm.trans he)
  · exact h.nitems.trans h.length_eq
  · intro hne
    cases l with
    | nil => exact absurd (h.nil_iff.mp rfl) hne.ne_empty
    | cons a l =>
        have hmin : st.minimumSig = a.sig := by
          rw [minimumSig, hleast]
          rfl
        rw [hmin]
        refine ⟨⟨a, (h.mem a).mp List.mem_cons_self, rfl⟩, ?_⟩
        rintro _ ⟨x, hx, rfl⟩
        rcases List.mem_cons.mp ((h.mem x).mpr hx) with rfl | hx
        · exact le_rfl
        · rcases pqKey_lt.mp ((List.pairwise_cons.mp h.sorted).1 x hx) with hlt | ⟨heq, -⟩
          · exact hlt.le
          · exact heq.le
  · intro he
    rw [minimumSig, hleast, h.nil_iff.mpr he]
    rfl

end HoldsSet

/-- Every call that the kernel makes returns, and does to the queue what the
abstract queue does. -/
theorem call_refines (h : HoldsSet st s l) {c : PqCall T} (hc : c.Admitted cnt s)
    (hf : s.card ≤ cnt) (hfuel : cnt < fuel) :
    ∃ r st' l', st.call fuel c = .ok (r, st') ∧ c.Returns s r ∧ HoldsSet st' (c.apply s) l' ∧
      (c.apply s).card ≤ cnt := by
  have hcnt := cnt.isLt
  have hlen := h.length_eq
  cases c with
  | enqueue e =>
      obtain ⟨hcard, hids⟩ := hc
      have hne : ∀ x ∈ l, pqKey x ≠ pqKey e := by
        intro x hx hk
        have := (Prod.ext_iff.mp hk).2
        exact hids x ((h.mem x).mp hx) this
      have hlt : l.length < fuel := by omega
      have hmax : l.length + 1 < 2 ^ 32 := by omega
      obtain ⟨st', l₁, l₂, hcall, hl, hholds⟩ := enqueue_holds h.toHolds hne hlt hmax
      refine ⟨none, st', l₁ ++ e :: l₂, ?_, rfl, ⟨hholds, fun x => ?_, ?_⟩, ?_⟩
      · simp only [call, hcall]
      · rw [PqCall.apply, Finset.mem_insert, ← h.mem, hl]
        simp only [List.mem_append, List.mem_cons]
        tauto
      · intro x hx y hy hxy
        rcases Finset.mem_insert.mp hx with hxe | hx
        · rcases Finset.mem_insert.mp hy with hye | hy
          · exact hxe.trans hye.symm
          · exact absurd (hxe ▸ hxy).symm (hids y hy)
        · rcases Finset.mem_insert.mp hy with hye | hy
          · exact absurd (hye ▸ hxy) (hids x hx)
          · exact h.ids x hx y hy hxy
      · exact (Finset.card_insert_le e s).trans hcard
  | dequeue =>
      have hids : ∀ x ∈ PqCall.dequeue.apply s, x ∈ s := fun x hx => (Finset.mem_filter.mp hx).1
      have hcard : (PqCall.dequeue.apply s).card ≤ cnt := (Finset.card_filter_le _ _).trans hf
      cases l with
      | nil =>
          have hs := h.nil_iff.mp rfl
          refine ⟨none, st, [], ?_,
            ⟨⟨fun _ => hs, fun _ => rfl⟩, fun _ he => absurd he.symm (Option.some_ne_none _)⟩,
            ⟨h.toHolds, fun x => ?_, fun x hx y hy => h.ids x (hids x hx) y (hids y hy)⟩, hcard⟩
          · exact if_pos h.nitems
          · rw [h.mem]
            exact ⟨fun hx => absurd (hs ▸ hx) (Finset.notMem_empty x), hids x⟩
      | cons a l =>
          have hal := List.pairwise_cons.mp h.sorted
          have ha := (h.mem a).mp List.mem_cons_self
          have hlen' : l.length < fuel := by
            rw [List.length_cons] at hlen
            omega
          obtain ⟨st', hcall, hholds⟩ := dequeue_holds h.toHolds hlen'
          refine ⟨some a, st', l, hcall,
            ⟨⟨fun he => absurd he (Option.some_ne_none a), fun he => ?_⟩, ?_⟩,
            ⟨hholds, fun x => ?_, fun x hx y hy => h.ids x (hids x hx) y (hids y hy)⟩, hcard⟩
          · exact absurd (he ▸ ha) (Finset.notMem_empty a)
          · rintro e ⟨⟩
            refine ⟨ha, fun x hx hxa => pqLess_of_lt (hal.1 x ?_)⟩
            exact (List.mem_cons.mp ((h.mem x).mpr hx)).resolve_left hxa
          · rw [PqCall.apply, Finset.mem_filter, ← h.mem, List.mem_cons]
            constructor
            · intro hx
              exact ⟨.inr hx, a, ha, pqLess_of_lt (hal.1 x hx)⟩
            · rintro ⟨rfl | hx, y, hy, hlt⟩
              · -- nothing is before the minimum
                exfalso
                rcases List.mem_cons.mp ((h.mem y).mpr hy) with rfl | hy
                · exact not_pqLess_self hlt
                · have := hal.1 y hy
                  exact ((pqLess_iff this.ne').mp hlt).not_gt this
              · exact hx
  | deleteAny r =>
      obtain ⟨l₁, l₂, rfl⟩ := List.append_of_mem ((h.mem r).mpr hc)
      have hlen' : (l₁ ++ r :: l₂).length ≤ fuel := by omega
      obtain ⟨st', hcall, hholds⟩ := deleteAny_holds h.toHolds hlen'
      have hr : r ∉ l₁ ++ l₂ :=
        (List.nodup_cons.mp (List.perm_middle.nodup_iff.mp h.sorted.nodup)).1
      refine ⟨none, st', l₁ ++ l₂, ?_, rfl, ⟨hholds, fun x => ?_, ?_⟩, ?_⟩
      · simp only [call, hcall]
      · rw [PqCall.apply, Finset.mem_erase, ← h.mem]
        constructor
        · intro hx
          exact ⟨fun he => hr (he ▸ hx), List.perm_middle.mem_iff.mpr (List.mem_cons_of_mem r hx)⟩
        · rintro ⟨hxr, hx⟩
          exact (List.mem_cons.mp (List.perm_middle.mem_iff.mp hx)).resolve_left hxr
      · intro x hx y hy
        exact h.ids x (Finset.mem_of_mem_erase hx) y (Finset.mem_of_mem_erase hy)
      · exact Finset.card_erase_le.trans hf

/-- For every sequence of calls the splay tree is a search tree of the events in
the abstract queue, and the next call returns what the abstract queue says. -/
theorem behaves_as_set (hfuel : cnt < fuel)
    (h : Reachable (fun q => q = (create, ∅)) (pqStep cnt fuel) (st, s)) :
    Refines st s ∧ ∀ c : PqCall T, c.Admitted cnt s →
      ∃ r st', st.call fuel c = .ok (r, st') ∧ c.Returns s r ∧ Refines st' (c.apply s) := by
  have hinv : ∃ l, HoldsSet st s l ∧ s.card ≤ cnt := by
    refine ReachableVia.invariant (P := fun q => ∃ l, HoldsSet q.1 q.2 l ∧ q.2.card ≤ cnt.val)
      ?_ ?_ h
    · rintro q rfl
      refine ⟨[], ⟨holds_create, fun e => ?_, fun x hx => ?_⟩, ?_⟩
      · simp
      · exact absurd hx (Finset.notMem_empty x)
      · exact Finset.card_empty.trans_le (Nat.zero_le _)
    · rintro ⟨st, s⟩ c ⟨st', s'⟩ ⟨l, hl, hcard⟩ - ⟨hadm, ⟨r, hcall⟩, hs'⟩
      obtain ⟨r', st'', l', hcall', -, hl', hcard'⟩ := call_refines hl hadm hcard hfuel
      dsimp only at hcall hcall' hs'
      rw [hcall] at hcall'
      cases hcall'
      subst hs'
      exact ⟨l', hl', hcard'⟩
  obtain ⟨l, hl, hcard⟩ := hinv
  refine ⟨hl.refines, fun c hc => ?_⟩
  obtain ⟨r, st', l', hcall, hret, hl', -⟩ := call_refines hl hc hcard hfuel
  exact ⟨r, st', hcall, hret, hl'.refines⟩

/-- An event of the first LP to itself. -/
def selfEvent (recvTs : Int) (eventId : Nat) : TwEvent Int :=
  ⟨eventId, ⟨recvTs, 1, [0]⟩, eventId, 0, 0, 0⟩

theorem behaves_as_set_three :
    ∃ (st : SplayTree Int) (s : Finset (TwEvent Int)), Refines st s ∧
      s = {selfEvent 2 1, selfEvent 3 3} := by
  have h₀ : Reachable (fun q => q = (create, ∅)) (pqStep 3 4)
      ((create, ∅) : SplayTree Int × Finset (TwEvent Int)) := .start rfl
  have h₁ := reachable_call (r := none) (.enqueue (selfEvent 2 1)) h₀ (by decide) rfl
  have h₂ := reachable_call (r := none) (.enqueue (selfEvent 1 2)) h₁ (by decide) rfl
  have h₃ := reachable_call (r := none) (.enqueue (selfEvent 3 3)) h₂ (by decide) rfl
  have h₄ := reachable_call (r := some (selfEvent 1 2)) .dequeue h₃ trivial rfl
  exact ⟨_, _, (behaves_as_set (by decide) h₄).1, by decide⟩

end SplayTree

end Ross

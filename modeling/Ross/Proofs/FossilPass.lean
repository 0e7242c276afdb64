import Ross.Core.Machine
import Ross.Proofs.FossilCollect

/-!
# The pass of fossil collection

`tw_pe_fossil_collect` on the linked lists leaves what the PE's pass over its queues
leaves: the same lists, and the commit handlers called for the same events in the same
order.
-/

namespace Ross

variable {T S M R : Type} [TwStime T] {m : SimModel T S M R} {s t t' : Pe T S M R}

namespace Pe

/-- A turn of `tw_pe_fossil_collect`. -/
def FossilTurn (m : SimModel T S M R) (s s' : Pe T S M R) : Prop :=
  ∃ kp children, s.At (.fossilCollect kp children) ∧ s.fossilStep m kp children = .ok s'

/-- What the pass from `s` has done at `t`, where the lists of the KPs before `kp` are cut. -/
structure PassAt (s t : Pe T S M R) (kp : Nat) : Prop where
  gvtSig : t.gvtSig = s.gvtSig
  queue : ∀ k, t.queue (.peventQ k) =
    if k < kp then (fossilCut s.gvtSig (s.queue (.peventQ k))).1 else s.queue (.peventQ k)
  nodup : (t.queue .fossil).Nodup
  line : t.commits ++ (t.queue .fossil).reverse = s.commits ++
    (List.range kp).flatMap fun k => (fossilCut s.gvtSig (s.queue (.peventQ k))).2.reverse

theorem PassAt.start (s : Pe T S M R) (hf : s.queue .fossil = []) : PassAt s s 0 := by
  refine ⟨rfl, fun k => (if_neg (Nat.not_lt_zero k)).symm, ?_, ?_⟩
  · rw [hf]
    exact List.nodup_nil
  · rw [hf]
    rfl

/-- The lists of the KPs and the events to commit are all that counts. -/
theorem PassAt.congr {kp : Nat} (h : PassAt s t kp) (hgvt : t'.gvtSig = t.gvtSig)
    (hq : ∀ k, t'.queue (.peventQ k) = t.queue (.peventQ k))
    (hf : t'.queue .fossil = t.queue .fossil) (hc : t'.commits = t.commits) : PassAt s t' kp := by
  refine ⟨hgvt.trans h.gvtSig, fun k => (hq k).trans (h.queue k), ?_, ?_⟩
  · rw [hf]
    exact h.nodup
  · rw [hf, hc]
    exact h.line

/-- The last of the events to commit goes behind the committed ones. -/
theorem PassAt.retire {kp j : Nat} {e : TwEvent T} (h : PassAt s t kp)
    (he : (t.queue .fossil).getLast? = some e) : PassAt s (t.retire j e) kp := by
  obtain ⟨l, hl⟩ := List.getLast?_eq_some_iff.mp he
  have hnd := h.nodup
  have hline := h.line
  rw [hl] at hnd hline
  have hnotMem : e ∉ l := fun hmem =>
    (List.nodup_append'.mp hnd).2.2 hmem (List.mem_singleton_self e)
  have hrest : (t.retire j e).queue .fossil = l := by
    show (t.queue .fossil).erase e = l
    rw [hl, List.erase_append_right _ hnotMem, List.erase_cons_head, List.append_nil]
  refine ⟨h.gvtSig, h.queue, ?_, ?_⟩
  · rw [hrest]
    exact (List.nodup_append'.mp hnd).1
  · show t.commits ++ [e] ++ _ = _
    rw [hrest, ← hline, List.reverse_append, List.reverse_singleton, List.append_assoc]

/-- The list of the next KP is cut. -/
theorem PassAt.cut {kp : Nat} (h : PassAt s t kp) (hnd : (s.queue (.peventQ kp)).Nodup)
    (hf : t.queue .fossil = []) : PassAt s (t.cutPevent kp) (kp + 1) := by
  have hkp : t.queue (.peventQ kp) = s.queue (.peventQ kp) :=
    (h.queue kp).trans (if_neg (lt_irrefl kp))
  have hfossil : (t.cutPevent kp).queue .fossil =
      (fossilCut s.gvtSig (s.queue (.peventQ kp))).2 := by
    rw [← hkp, ← h.gvtSig]
    simp [cutPevent]
  have hline := h.line
  rw [hf, List.reverse_nil, List.append_nil] at hline
  refine ⟨h.gvtSig, fun k => ?_, ?_, ?_⟩
  · by_cases hk : k = kp
    · rw [hk, cutPevent_self, hkp, h.gvtSig, if_pos (Nat.lt_succ_self kp)]
    · rw [cutPevent_of_ne t hk, h.queue k]
      exact if_congr (by omega) rfl rfl
  · rw [hfossil]
    rw [← fossilCut_append s.gvtSig (s.queue (.peventQ kp))] at hnd
    exact (List.nodup_append'.mp hnd).2.1
  · show t.commits ++ _ = _
    rw [hfossil, hline, List.range_succ, List.flatMap_append, List.flatMap_singleton,
      List.append_assoc]

/-- A turn frees a child, commits an event, cuts the list of the next KP or ends the pass. -/
theorem PassAt.step {kp : Nat} {children : List (TwEvent T)} (h : PassAt s t kp)
    (hkp : kp ≤ m.nkp) (hnd : ∀ k, (s.queue (.peventQ k)).Nodup)
    (hs : t.fossilStep m kp children = .ok t') :
    (∃ kp' left, t'.phase = .fossilCollect kp' left ∧ kp' ≤ m.nkp ∧ PassAt s t' kp') ∨
      (t'.phase = .idle ∧ t'.queue .fossil = [] ∧ PassAt s t' m.nkp) := by
  rcases fossilStep_ok hs with ⟨c, cs, -, ⟨-, rfl⟩ | ⟨-, rfl⟩⟩ | ⟨-, e, he, hcommit⟩ |
    ⟨-, hf, hlt, rfl⟩ | ⟨-, hf, hge, rfl⟩
  · exact .inl ⟨kp, cs, rfl, hkp, h.congr rfl (fun _ => rfl) rfl rfl⟩
  · exact .inl ⟨kp, cs, rfl, hkp, h.congr rfl (fun _ => rfl) rfl rfl⟩
  · have hret := h.retire (j := kp) he
    rcases commitEvent_ok hcommit with ⟨-, rfl⟩ | ⟨-, -, c, -, rfl⟩
    · exact .inl ⟨kp, _, rfl, hkp, hret⟩
    · exact .inl ⟨kp, _, rfl, hkp, hret.congr rfl (fun _ => rfl) rfl rfl⟩
  · exact .inl ⟨kp + 1, [], rfl, hlt, (h.cut (hnd kp) hf).congr rfl (fun _ => rfl) rfl rfl⟩
  · obtain rfl : kp = m.nkp := le_antisymm hkp hge
    exact .inr ⟨rfl, hf, h.congr rfl (fun _ => rfl) rfl rfl⟩

/-- The pass from its start: it is at a KP, or at its end with all lists cut. -/
theorem passAt_of_turns (hs : s.At (.fossilCollect 0 [])) (hf : s.queue .fossil = [])
    (hnd : ∀ k, (s.queue (.peventQ k)).Nodup)
    (h : Relation.ReflTransGen (FossilTurn m) s t) :
    (∃ kp left, t.phase = .fossilCollect kp left ∧ kp ≤ m.nkp ∧ PassAt s t kp) ∨
      (t.phase = .idle ∧ t.queue .fossil = [] ∧ PassAt s t m.nkp) := by
  induction h with
  | refl => exact .inl ⟨0, [], hs.2.2, Nat.zero_le _, .start s hf⟩
  | tail _ hturn ih =>
      obtain ⟨kp, children, ⟨-, -, hphase⟩, hok⟩ := hturn
      rcases ih with ⟨kp', left, hphase', hkp, hpass⟩ | ⟨hidle, -, -⟩
      · rw [hphase'] at hphase
        cases hphase
        exact hpass.step hkp hnd hok
      · rw [hidle] at hphase
        cases hphase

end Pe

/-! ## The pass on the linked lists -/

namespace FossilHeap

variable {cfg : FossilConfig} {heap : FossilHeap T m.nkp} {evs : Fin m.nkp → List Nat}
  {frs : List Nat} {kids : Nat → List Nat} {ev : Nat → TwEvent T} {gvt : TwEventSig T}

/-- The cut of the PE is the one of the linked list. -/
theorem fossilCut_map {event : Nat → EventCell T} {es : List Nat}
    (hsig : ∀ e ∈ es, (ev e).sig = (event e).sig) (hsort : Descending event es) :
    fossilCut gvt (es.map ev) = ((young event gvt es).map ev, (old event gvt es).map ev) := by
  have hsorted : (es.map ev).Pairwise fun x y => y.sig ≤ x.sig := by
    rw [List.pairwise_map]
    exact hsort.imp_of_mem fun ha hb hab => by rw [hsig _ ha, hsig _ hb]; exact hab
  rw [fossilCut_eq_filter hsorted, List.filter_map, List.filter_map]
  congr 2
  · exact List.filter_congr fun e he => by rw [Function.comp_apply, hsig e he]
  · exact List.filter_congr fun e he => by rw [Function.comp_apply, hsig e he]

theorem flatMap_finRange {α : Type} (n : Nat) (f : Nat → List α) :
    ((List.finRange n).flatMap fun k : Fin n => f k) = (List.range n).flatMap f := by
  rw [← List.map_coe_finRange_eq_range, List.flatMap_map]

/-- `tw_pe_fossil_collect` on the linked lists of a PE, with `ev` from the buffers in memory to
the events: the lists are those that the pass of the PE leaves, and the commit handlers are
called for its committed events, those of an LP without a handler left out. -/
theorem twPeFossilCollect_pass (cfg : FossilConfig) (h : Held heap evs frs kids)
    (hsort : ∀ k, Descending heap.event (evs k))
    (hsig : ∀ k, ∀ e ∈ evs k, (ev e).sig = (heap.event e).sig)
    (hq : ∀ k : Fin m.nkp, s.queue (.peventQ k) = (evs k).map ev)
    (hnd : ∀ k, (s.queue (.peventQ k)).Nodup) (hs : s.At (.fossilCollect 0 []))
    (hf : s.queue .fossil = []) (hturns : Relation.ReflTransGen (Pe.FossilTurn m) s t)
    (hend : t.phase = .idle) :
    ∃ bound, ∀ n, bound ≤ n → ∃ heap' evs' frs' es,
      twPeFossilCollect cfg n s.gvtSig heap = .ok heap' ∧ Held heap' evs' frs' kids ∧
      (∀ k : Fin m.nkp, t.queue (.peventQ k) = (evs' k).map ev) ∧
      t.commits = s.commits ++ es.map ev ∧
      heap'.committed = heap.committed ++ toCommit cfg heap.event es := by
  have hcut : ∀ k : Fin m.nkp, fossilCut s.gvtSig (s.queue (.peventQ k)) =
      ((young heap.event s.gvtSig (evs k)).map ev, (old heap.event s.gvtSig (evs k)).map ev) :=
    fun k => hq k ▸ fossilCut_map (hsig k) (hsort k)
  obtain ⟨-, hfossil, hpass⟩ : t.phase = .idle ∧ t.queue .fossil = [] ∧ Pe.PassAt s t m.nkp := by
    rcases Pe.passAt_of_turns hs hf hnd hturns with ⟨kp, left, hphase, -, -⟩ | hdone
    · rw [hphase] at hend
      cases hend
    · exact hdone
  have hline := hpass.line
  rw [hfossil, List.reverse_nil, List.append_nil, ← flatMap_finRange] at hline
  obtain ⟨bound, hbound⟩ := twPeFossilCollect_ok cfg s.gvtSig h hsort
  refine ⟨bound, fun n hn => ?_⟩
  obtain ⟨heap', frs', hok, hheld, hcom⟩ := hbound n hn
  refine ⟨heap', _, frs',
    (List.finRange m.nkp).flatMap fun k => (old heap.event s.gvtSig (evs k)).reverse, hok, hheld,
    fun k => ?_, ?_, ?_⟩
  · rw [hpass.queue k, if_pos k.isLt, hcut k]
  · rw [hline, List.map_flatMap]
    congr 1
    refine List.flatMap_congr fun k _ => ?_
    rw [hcut k, List.map_reverse]
  · rw [hcom]
    unfold toCommit
    rw [List.filter_flatMap]

end FossilHeap

end Ross

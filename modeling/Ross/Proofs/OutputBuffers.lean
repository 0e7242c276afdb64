import Ross.Core.Printing
import Ross.Lib.Pool

/-!
# The buffers of the KPs

Every `tw_out` of a KP is in the list `output` of its KP or in the `out_msgs` of one event.
-/

namespace Ross

variable {T S M R : Type}

namespace Printing

/-- Every buffer is in one list, and a KP keeps only buffers of its own. -/
structure Stocked (o : Printing T M) : Prop where
  exclusive : Pool.Exclusive o.places
  complete : ∀ kp i, i < numOutMesg → ∃ q, (kp, i) ∈ o.places q
  own : ∀ kp, ∀ b ∈ o.places (.inl kp), b.1 = kp

namespace Stocked

variable {o o' : Printing T M}

/-- The calls still to make are no matter of the buffers. -/
theorem congr (h : Stocked o) (hp : o'.places = o.places) : Stocked o' := by
  refine ⟨?_, ?_, ?_⟩
  · rw [hp]
    exact h.exclusive
  · rw [hp]
    exact h.complete
  · rw [hp]
    exact h.own

theorem start : Stocked (Printing.start : Printing T M) := by
  have hkp : ∀ kp, (Printing.start : Printing T M).places (.inl kp) =
      (List.range numOutMesg).map fun i => (kp, i) := by
    intro kp
    unfold places Printing.start initOutputMessages
    dsimp only
    rw [List.map_map]
    exact List.map_congr_left fun _ _ => rfl
  have hown : ∀ kp, ∀ b ∈ (Printing.start : Printing T M).places (.inl kp), b.1 = kp := by
    intro kp b hb
    rw [hkp] at hb
    obtain ⟨i, -, rfl⟩ := List.mem_map.mp hb
    rfl
  refine ⟨⟨fun q => ?_, ?_⟩, fun kp i hi => ⟨.inl kp, ?_⟩, hown⟩
  · cases q with
    | inl kp =>
        rw [hkp]
        exact List.nodup_range.map fun _ _ heq => congrArg Prod.snd heq
    | inr e => exact List.nodup_nil
  · intro q j b hq hj
    cases q with
    | inr e => cases hq
    | inl kp =>
        cases j with
        | inr e => cases hj
        | inl kp' => rw [← hown kp b hq, ← hown kp' b hj]
  · rw [hkp]
    exact List.mem_map.mpr ⟨i, List.mem_range.mpr hi, rfl⟩

variable [DecidableEq T]

/-- A buffer moves to another list, with an owner that may keep it there. -/
theorem move (h : Stocked o) {q j : Nat ⊕ TwEvent T} {b : Nat × Nat} (hb : b ∈ o.places q)
    (hexcl : Pool.Exclusive o'.places)
    (hmem : ∀ i x, x ∈ o'.places i ↔ i = j ∧ x = b ∨ x ∈ Pool.remove o.places q b i)
    (hown : ∀ kp, j = .inl kp → b.1 = kp) : Stocked o' where
  exclusive := hexcl
  complete kp i hi := by
    by_cases heq : (kp, i) = b
    · exact ⟨j, (hmem _ _).mpr (.inl ⟨rfl, heq⟩)⟩
    · obtain ⟨p, hp⟩ := h.complete kp i hi
      exact ⟨p, (hmem _ _).mpr (.inr (h.exclusive.mem_remove.mpr ⟨hp, fun hand => heq hand.2⟩))⟩
  own kp x hx := by
    rcases (hmem _ _).mp hx with ⟨hj, rfl⟩ | hx
    · exact hown kp hj.symm
    · exact h.own kp x (Pool.of_mem_remove hx)

theorem twOutput (h : Stocked o) (kp : Nat) (cev : TwEvent T) (text : List Char) :
    Stocked (o.twOutput kp cev text) := by
  unfold Printing.twOutput
  split
  · exact h.congr rfl
  next out rest hout =>
    have hhead : o.places (.inl kp) =
        (out.owner, out.index) :: rest.map fun out => (out.owner, out.index) := by
      show (o.output kp).map _ = _
      rw [hout, List.map_cons]
    have hmem : (out.owner, out.index) ∈ o.places (.inl kp) := hhead ▸ List.mem_cons_self
    have htail := Pool.update_tail hhead
    have hplaces : ({ o with
        output := Function.update o.output kp rest
        outMsgs := Function.update o.outMsgs cev (o.outMsgs cev ++ [out.format text])
        stdout := if text.length < messageSize then o.stdout else o.stdout ++ [.tooLarge] } :
          Printing T M).places =
        Pool.snoc (Pool.remove o.places (.inl kp) (out.owner, out.index)) (.inr cev)
          (out.owner, out.index) := by
      rw [← htail]
      funext q
      cases q with
      | inl k =>
          rw [Pool.snoc_of_ne Sum.inl_ne_inr]
          show ((Function.update o.output kp rest) k).map _ = _
          by_cases hk : k = kp
          · rw [hk, Function.update_self, Function.update_self]
          · rw [Function.update_of_ne hk, Function.update_of_ne fun heq => hk (Sum.inl.inj heq)]
            rfl
      | inr e =>
          show ((Function.update o.outMsgs cev (o.outMsgs cev ++ [out.format text])) e).map _ = _
          by_cases he : e = cev
          · rw [he, Function.update_self, Pool.snoc_self, Function.update_of_ne Sum.inr_ne_inl,
              List.map_append]
            rfl
          · rw [Function.update_of_ne he, Pool.snoc_of_ne fun heq => he (Sum.inr.inj heq),
              Function.update_of_ne Sum.inr_ne_inl]
            rfl
    refine h.move (j := .inr cev) hmem ?_ (fun i x => ?_) nofun
    · rw [hplaces]
      exact h.exclusive.moveLast hmem _
    · rw [hplaces]
      exact Pool.mem_snoc

/-- The first buffer of an event goes back to its KP. -/
theorem freeOutputMessage (h : Stocked o) {e : TwEvent T} {out : TwOut} {l : List TwOut}
    (hl : o.outMsgs e = out :: l) (b : Bool) : Stocked (o.freeOutputMessage e b out) := by
  have hhead : o.places (.inr e) =
      (out.owner, out.index) :: l.map fun out => (out.owner, out.index) := by
    show (o.outMsgs e).map _ = _
    rw [hl, List.map_cons]
  have hmem : (out.owner, out.index) ∈ o.places (.inr e) := hhead ▸ List.mem_cons_self
  have htail := Pool.update_tail hhead
  have hplaces : (o.freeOutputMessage e b out).places =
      Pool.cons (Pool.remove o.places (.inr e) (out.owner, out.index)) (.inl out.owner)
        (out.owner, out.index) := by
    rw [← htail]
    funext q
    cases q with
    | inl k =>
        show ((Function.update o.output out.owner (out :: o.output out.owner)) k).map _ = _
        by_cases hk : k = out.owner
        · rw [hk, Function.update_self, Pool.cons_self, Function.update_of_ne Sum.inl_ne_inr,
            List.map_cons]
          rfl
        · rw [Function.update_of_ne hk, Pool.cons_of_ne fun heq => hk (Sum.inl.inj heq),
            Function.update_of_ne Sum.inl_ne_inr]
          rfl
    | inr x =>
        rw [Pool.cons_of_ne Sum.inr_ne_inl]
        show ((Function.update o.outMsgs e (o.outMsgs e).tail) x).map _ = _
        by_cases hx : x = e
        · rw [hx, Function.update_self, Function.update_self, hl, List.tail_cons]
        · rw [Function.update_of_ne hx, Function.update_of_ne fun heq => hx (Sum.inr.inj heq)]
          rfl
  refine h.move hmem ?_ (fun i x => ?_) fun kp heq => Sum.inl.inj heq
  · rw [hplaces]
    exact h.exclusive.move hmem _
  · rw [hplaces]
    exact Pool.mem_cons

theorem foldl_freeOutputMessage {e : TwEvent T} (b : Bool) (l : List TwOut)
    (h : Stocked o) (hl : o.outMsgs e = l) :
    Stocked (l.foldl (Printing.freeOutputMessage e b) o) := by
  induction l generalizing o with
  | nil => exact h
  | cons out l ih =>
      refine ih (h.freeOutputMessage hl b) ?_
      show Function.update o.outMsgs e (o.outMsgs e).tail e = l
      rw [Function.update_self, hl, List.tail_cons]

theorem twFreeOutputMessages (h : Stocked o) (e : TwEvent T) (b : Bool) :
    Stocked (o.twFreeOutputMessages e b) := h.foldl_freeOutputMessage b _ rfl

theorem freeAll (h : Stocked o) (b : Bool) (es : List (TwEvent T)) :
    Stocked (es.foldl (fun o e => o.twFreeOutputMessages e b) o) := by
  induction es generalizing o with
  | nil => exact h
  | cons e es ih => exact ih (h.twFreeOutputMessages e b)

theorem speak (m : SimModel T S M R) (cev : TwEvent T) (cs : List (HandlerCall T M))
    (h : Stocked o) : Stocked (o.speak m cev cs) := by
  induction cs generalizing o with
  | nil => exact h.congr rfl
  | cons c cs ih =>
      cases c with
      | kernel op => exact h.congr rfl
      | output lp text => exact ih (h.twOutput _ cev text)

theorem speakAll (m : SimModel T S M R) (cev : TwEvent T) (cs : List (HandlerCall T M))
    (h : Stocked o) : Stocked (o.speakAll m cev cs) := by
  induction cs generalizing o with
  | nil => exact h
  | cons c cs ih =>
      cases c with
      | kernel op => exact ih h
      | output lp text => exact ih (h.twOutput _ cev text)

end Stocked

end Printing

namespace PrintModel

variable [TwStime T] (m : PrintModel T S M R) (s s' : Pe T S M R) {o : Printing T M}

theorem called_stocked (h : o.Stocked) : (m.called s s' o).Stocked := by
  unfold called
  split
  · exact h.congr rfl
  · exact h

theorem spoken_stocked (h : o.Stocked) : (m.spoken s o).Stocked := by
  unfold spoken
  split
  · exact h.speak _ _ _
  · exact h

omit m in
theorem takenBack_stocked (h : o.Stocked) : (takenBack s s' o).Stocked := by
  unfold takenBack
  split
  · exact h.twFreeOutputMessages _ _
  · exact h

/-- What a step does with the buffers of its PE. -/
theorem print_stocked (h : o.Stocked) : (m.print s s' o).Stocked := by
  have hspoken := m.spoken_stocked s (m.called_stocked s s' h)
  exact .freeAll (.freeAll (takenBack_stocked s s' hspoken) _ _) _ _

end PrintModel

end Ross

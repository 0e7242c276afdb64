import Ross.Proofs.OutputBuffers
import Ross.Proofs.Standing
import Ross.Proofs.NetEvents

/-!
# The messages printed

The messages that wait on an event are those of its execution that stands, and the messages
printed are those of the committed executions.
-/

namespace Ross

open Transition

variable {T S M R : Type} [TwStime T]

/-- The calls that the handler of `e` has still to make. -/
def Printing.unsaid (o : Printing T M) (s : Pe T S M R) (e : TwEvent T) :
    List (HandlerCall T M) :=
  match s.pending with
  | some p => if p.1 = e then o.calls else []
  | none => []

/-- The messages of the executions `xs`, in order. -/
def executedMessages (xs : List (Execution (TwEvent T) (List (HandlerCall T M)))) :
    List (List Char) :=
  xs.flatMap fun x => HandlerCall.messages x.record

/-- What the buffers and the executions of a PE have to do with each other and with its state. -/
structure Ledgered (s : Pe T S M R) (o : Printing T M) (l : Executions T M) : Prop where
  valid : l.Valid
  live : ∀ e, (∃ x, l.live e = some x) ↔ s.Standing e
  silent : ∀ e, ¬ s.Standing e → o.outMsgs e = []
  said : ∀ e x, l.live e = some x →
    (o.outMsgs e).map TwOut.shown ++ HandlerCall.messages (o.unsaid s e) =
      HandlerCall.messages x.record
  calls : ∀ p, s.pending = some p → s.Standing p.1 ∧ o.calls.filterMap HandlerCall.op = p.2
  printed : o.messages = executedMessages l.committed
  commits : l.committed.map Execution.subject = s.commits

section Unsaid

variable {s : Pe T S M R} {o : Printing T M} {e : TwEvent T}

theorem Printing.unsaid_none (h : s.pending = none) : o.unsaid s e = [] := by
  unfold unsaid
  rw [h]

theorem Printing.unsaid_self {ops : List (HandlerOp T M)} (h : s.pending = some (e, ops)) :
    o.unsaid s e = o.calls := by
  unfold unsaid
  rw [h]
  exact if_pos rfl

theorem Printing.unsaid_of_ne {p : TwEvent T × List (HandlerOp T M)} (h : s.pending = some p)
    (hne : p.1 ≠ e) : o.unsaid s e = [] := by
  unfold unsaid
  rw [h]
  exact if_neg hne

end Unsaid

namespace Ledgered

variable {m : PrintModel T S M R} {s s' : Pe T S M R} {o : Printing T M} {l : Executions T M}

/-- What the handler in progress says up to its next call into the kernel. -/
theorem talk (h : Ledgered s o l) (ht : s.Talk s') (hstock : (m.spoken s o).InStock) :
    (m.spoken s o).messages = o.messages ∧
      (∀ e, ¬ s.Standing e → (m.spoken s o).outMsgs e = []) ∧
      (∀ e x, l.live e = some x →
        ((m.spoken s o).outMsgs e).map TwOut.shown ++
            HandlerCall.messages ((m.spoken s o).unsaid s' e) =
          HandlerCall.messages x.record) ∧
      ∀ p, s'.pending = some p →
        s.Standing p.1 ∧ (m.spoken s o).calls.filterMap HandlerCall.op = p.2 := by
  rcases ht with ⟨hnone, hpend⟩ | ⟨p, hsome, hpend, hnext⟩
  · have heq : m.spoken s o = o := by
      unfold PrintModel.spoken
      rw [hnone]
    have hun : ∀ e, o.unsaid s' e = o.unsaid s e := by
      intro e
      unfold Printing.unsaid
      rw [hpend]
    rw [heq] at hstock ⊢
    refine ⟨rfl, h.silent, fun e x hx => ?_, fun p hp => h.calls p (hpend ▸ hp)⟩
    rw [hun]
    exact h.said e x hx
  · have heq : m.spoken s o = o.speak m.toSimModel p.1 o.calls := by
      unfold PrintModel.spoken
      rw [hsome]
    obtain ⟨hstand, hops⟩ := h.calls p hpend
    rw [heq] at hstock ⊢
    obtain ⟨-, hmsgs, hcalls, hend, new, hnew, htext⟩ := Printing.speak_ok _ hstock
    rw [hops] at hcalls hend
    -- The calls left are those of the handler in progress after the step.
    have hleft : ∀ e, (o.speak m.toSimModel p.1 o.calls).unsaid s' e =
        if p.1 = e then (o.speak m.toSimModel p.1 o.calls).calls else [] := by
      intro e
      unfold Printing.unsaid
      rw [hnext]
      unfold Pe.afterCall
      cases hp : p.2 with
      | nil =>
          rw [hend hp]
          exact (ite_self _).symm
      | cons op ops => rfl
    refine ⟨hmsgs, fun e he => ?_, fun e x hx => ?_, fun p' hp' => ?_⟩
    · have hne : e ≠ p.1 := fun heq => he (heq ▸ hstand)
      rw [hnew, Function.update_of_ne hne]
      exact h.silent e he
    · rw [hleft, hnew]
      by_cases hp : p.1 = e
      · subst hp
        have hsaid := h.said p.1 x hx
        rw [Printing.unsaid_self hpend] at hsaid
        rw [if_pos rfl, Function.update_self, List.map_append, List.append_assoc, htext]
        exact hsaid
      · have hsaid := h.said e x hx
        rw [Printing.unsaid_of_ne hpend hp] at hsaid
        rw [if_neg hp, Function.update_of_ne fun heq => hp heq.symm]
        exact hsaid
    · rw [hnext] at hp'
      unfold Pe.afterCall at hp'
      cases hp : p.2 with
      | nil =>
          rw [hp] at hp'
          cases hp'
      | cons op ops =>
          rw [hp] at hp' hcalls
          cases hp'
          exact ⟨hstand, hcalls⟩

/-- A step that starts no execution: the buffers are freed after the handler has spoken. -/
theorem print_eq (hstart : s.startsEvent s' = none) : m.print s s' o =
    (s.newFreed s' ++ s.newBuffers s').foldl (fun o e => o.twFreeOutputMessages e false)
      ((s.newCommits s').foldl (fun o e => o.twFreeOutputMessages e true)
        (PrintModel.takenBack s s' (m.spoken s o))) := by
  have hcalled : m.called s s' o = o := by
    unfold PrintModel.called
    rw [hstart]
  unfold PrintModel.print
  rw [hcalled]

theorem takenBack_of_none (hundo : s.undoesEvent s' = none) :
    PrintModel.takenBack s s' o = o := by
  unfold PrintModel.takenBack
  rw [hundo]

theorem takenBack_of_some {e : TwEvent T} (hundo : s.undoesEvent s' = some e) :
    PrintModel.takenBack s s' o = o.twFreeOutputMessages e false := by
  unfold PrintModel.takenBack
  rw [hundo]

theorem takenBack_inStock (h : (PrintModel.takenBack s s' o).InStock) : o.InStock := by
  unfold PrintModel.takenBack at h
  split at h
  · exact h.of_append (o.twFreeOutputMessages_stdout _ _)
  · exact h

/-- A KP that ran out of buffers had none left before. -/
theorem print_inStock (hstock : (m.print s s' o).InStock) : o.InStock := by
  have hcalled : (m.called s s' o).InStock → o.InStock := by
    unfold PrintModel.called
    split
    · exact id
    · exact id
  have hspoken := takenBack_inStock hstock.of_free.of_free
  unfold PrintModel.spoken at hspoken
  split at hspoken
  · exact hcalled (Printing.speak_ok _ hspoken).1
  · exact hcalled hspoken

theorem spoken_inStock (hstart : s.startsEvent s' = none) (hstock : (m.print s s' o).InStock) :
    (m.spoken s o).InStock := by
  rw [print_eq hstart] at hstock
  exact takenBack_inStock hstock.of_free.of_free

/-- No execution starts or ends. -/
theorem keep (h : Ledgered s o l) (hstart : s.startsEvent s' = none)
    (hundo : s.undoesEvent s' = none) (hc : s'.commits = s.commits)
    (hgone : ∀ e ∈ s.newFreed s' ++ s.newBuffers s', ¬ s.Standing e) (ht : s.Talk s')
    (hst : ∀ e, s'.Standing e ↔ s.Standing e) (hstock : (m.print s s' o).InStock) :
    Ledgered s' (m.print s s' o) (m.account s s' l) := by
  have hcom : s.newCommits s' = [] := by
    unfold Pe.newCommits
    rw [hc, List.drop_length]
  have hacc : m.account s s' l = l := by
    unfold PrintModel.account
    rw [hstart, hundo, hcom]
    rfl
  have hprint := print_eq (m := m) (o := o) hstart
  rw [takenBack_of_none hundo, hcom, List.foldl_nil] at hprint
  obtain ⟨hmsgs, hsilent, hsaid, hcalls⟩ := h.talk ht (spoken_inStock hstart hstock)
  rw [Printing.free_silent fun e he => hsilent e (hgone e he)] at hprint
  rw [hprint, hacc]
  refine ⟨h.valid, fun e => (h.live e).trans (hst e).symm,
    fun e he => hsilent e fun hs => he ((hst e).mpr hs), hsaid, fun p hp => ?_,
    hmsgs.trans h.printed, h.commits.trans hc.symm⟩
  obtain ⟨hs, hops⟩ := hcalls p hp
  exact ⟨(hst p.1).mpr hs, hops⟩

/-- A handler is called. -/
theorem start {cev : TwEvent T} (h : Ledgered s o l) (hstart : s.startsEvent s' = some cev)
    (hundo : s.undoesEvent s' = none) (hc : s'.commits = s.commits)
    (hgone : ∀ e ∈ s.newFreed s' ++ s.newBuffers s', ¬ s.Standing e) (hsp : s.speaker = none)
    (hpend : s'.pending = some (cev, s.forwardOps m.toSimModel cev)) (hnot : ¬ s.Standing cev)
    (hst : ∀ e, s'.Standing e ↔ s.Standing e ∨ e = cev) :
    Ledgered s' (m.print s s' o) (m.account s s' l) := by
  have hcom : s.newCommits s' = [] := by
    unfold Pe.newCommits
    rw [hc, List.drop_length]
  have hacc : m.account s s' l = l.start cev (m.forwardCalls s cev) := by
    unfold PrintModel.account
    rw [hstart, hundo, hcom]
    rfl
  have hprint : m.print s s' o = { o with calls := m.forwardCalls s cev } := by
    have hfree := Printing.free_silent (o := { o with calls := m.forwardCalls s cev })
      fun e he => h.silent e (hgone e he)
    have hspoken : m.spoken s (m.called s s' o) = { o with calls := m.forwardCalls s cev } := by
      unfold PrintModel.spoken PrintModel.called
      rw [hstart, hsp]
    unfold PrintModel.print
    rw [takenBack_of_none hundo, hspoken, hcom]
    exact hfree
  obtain ⟨-, ⟨kind, left, hb⟩, -⟩ := Pe.startsEvent_some hstart
  have hidle : s.pending = none := Pe.pending_outside fun _ _ _ _ hp =>
    nomatch hb.symm.trans hp
  rw [hprint, hacc]
  refine ⟨h.valid.start cev _, fun e => ?_, fun e he => ?_, fun e x hx => ?_,
    fun p hp => ?_, h.printed, h.commits.trans hc.symm⟩
  · rw [hst]
    by_cases he : e = cev
    · rw [he, ExecutionLedger.start_live_self]
      exact ⟨fun _ => .inr rfl, fun _ => ⟨_, rfl⟩⟩
    · rw [ExecutionLedger.start_live_of_ne l he, h.live e]
      exact (or_iff_left he).symm
  · exact h.silent e fun hs => he ((hst e).mpr (.inl hs))
  · by_cases he : e = cev
    · subst he
      rw [ExecutionLedger.start_live_self] at hx
      cases hx
      rw [Printing.unsaid_self hpend]
      show (o.outMsgs e).map TwOut.shown ++ _ = _
      rw [h.silent e hnot]
      rfl
    · rw [ExecutionLedger.start_live_of_ne l he] at hx
      have hsaid := h.said e x hx
      rw [Printing.unsaid_none hidle] at hsaid
      rw [Printing.unsaid_of_ne hpend fun heq => he heq.symm]
      exact hsaid
  · cases hpend.symm.trans hp
    exact ⟨(hst cev).mpr (.inr rfl), m.forwardCalls_ops s cev⟩

/-- The execution of an event ends. -/
theorem live_end {e x : TwEvent T} (h : Ledgered s o l)
    (hst : ∀ x, s'.Standing x ↔ s.Standing x ∧ x ≠ e) :
    (∃ y, Function.update l.live e none x = some y) ↔ s'.Standing x := by
  rw [hst]
  by_cases hx : x = e
  · rw [hx, Function.update_self]
    refine ⟨?_, fun hand => absurd rfl hand.2⟩
    rintro ⟨y, hy⟩
    cases hy
  · rw [Function.update_of_ne hx, h.live x]
    exact (and_iff_left hx).symm

/-- The event is undone. -/
theorem undo {e : TwEvent T} (h : Ledgered s o l) (hstart : s.startsEvent s' = none)
    (hundo : s.undoesEvent s' = some e) (hc : s'.commits = s.commits)
    (hgone : ∀ e ∈ s.newFreed s' ++ s.newBuffers s', ¬ s.Standing e) (ht : s.Talk s')
    (hpend : s'.pending = none) (hst : ∀ x, s'.Standing x ↔ s.Standing x ∧ x ≠ e)
    (hstock : (m.print s s' o).InStock) :
    Ledgered s' (m.print s s' o) (m.account s s' l) := by
  have hcom : s.newCommits s' = [] := by
    unfold Pe.newCommits
    rw [hc, List.drop_length]
  have hacc : m.account s s' l = l.undo e := by
    unfold PrintModel.account
    rw [hstart, hundo, hcom]
    rfl
  have hprint := print_eq (m := m) (o := o) hstart
  rw [takenBack_of_some hundo, hcom, List.foldl_nil] at hprint
  obtain ⟨hmsgs, hsilent, hsaid, -⟩ := h.talk ht (spoken_inStock hstart hstock)
  have hmsgs' := (m.spoken s o).twFreeOutputMessages_outMsgs e false
  have hsilent' : ∀ x, ¬ (s.Standing x ∧ x ≠ e) →
      ((m.spoken s o).twFreeOutputMessages e false).outMsgs x = [] := by
    intro x hx
    rw [hmsgs']
    by_cases hxe : x = e
    · rw [hxe, Function.update_self]
    · rw [Function.update_of_ne hxe]
      exact hsilent x fun hs => hx ⟨hs, hxe⟩
  rw [Printing.free_silent fun x hx => hsilent' x fun hand => hgone x hx hand.1] at hprint
  rw [hprint, hacc]
  refine ⟨h.valid.undo e, fun x => h.live_end hst, fun x hx => ?_, fun x y hy => ?_,
    fun p hp => ?_, ?_, h.commits.trans hc.symm⟩
  · exact hsilent' x fun hand => hx ((hst x).mpr hand)
  · have hxe : x ≠ e := by
      rintro rfl
      exact nomatch (Function.update_self (f := l.live) ..).symm.trans hy
    have hy : l.live x = some y := (Function.update_of_ne hxe ..).symm.trans hy
    have hs := hsaid x y hy
    rw [Printing.unsaid_none hpend] at hs ⊢
    rw [hmsgs', Function.update_of_ne hxe]
    exact hs
  · cases hpend.symm.trans hp
  · rw [Printing.messages_drop, hmsgs]
    exact h.printed

/-- The event is committed and its messages are printed. -/
theorem commit {e : TwEvent T} (h : Ledgered s o l) (hstart : s.startsEvent s' = none)
    (hundo : s.undoesEvent s' = none) (hc : s'.commits = s.commits ++ [e])
    (hfreed : s.newFreed s' = []) (hbuf : s.newBuffers s' = []) (ht : s.Talk s')
    (hpend : s'.pending = none) (he : s.Standing e)
    (hst : ∀ x, s'.Standing x ↔ s.Standing x ∧ x ≠ e) (hstock : (m.print s s' o).InStock) :
    Ledgered s' (m.print s s' o) (m.account s s' l) := by
  have hcom : s.newCommits s' = [e] := by
    unfold Pe.newCommits
    rw [hc, List.drop_left]
  have hacc : m.account s s' l = l.commit e := by
    unfold PrintModel.account
    rw [hstart, hundo, hcom]
    rfl
  obtain ⟨hmsgs, hsilent, hsaid, -⟩ := h.talk ht (spoken_inStock hstart hstock)
  have hmsgs' := (m.spoken s o).twFreeOutputMessages_outMsgs e true
  have hprint : m.print s s' o = (m.spoken s o).twFreeOutputMessages e true := by
    rw [print_eq hstart, takenBack_of_none hundo, hcom, hfreed, hbuf]
    rfl
  obtain ⟨y, hy⟩ := (h.live e).mpr he
  have hcommit : (l.commit e).committed = l.committed ++ [y] := by
    show l.committed ++ (l.live e).toList = _
    rw [hy]
    rfl
  rw [hprint, hacc]
  refine ⟨h.valid.commit e, fun x => h.live_end hst, fun x hx => ?_, fun x z hz => ?_,
    fun p hp => ?_, ?_, ?_⟩
  · rw [hmsgs']
    by_cases hxe : x = e
    · rw [hxe, Function.update_self]
    · rw [Function.update_of_ne hxe]
      exact hsilent x fun hs => hx ((hst x).mpr ⟨hs, hxe⟩)
  · have hxe : x ≠ e := by
      rintro rfl
      exact nomatch (Function.update_self (f := l.live) ..).symm.trans hz
    have hz : l.live x = some z := (Function.update_of_ne hxe ..).symm.trans hz
    have hs := hsaid x z hz
    rw [Printing.unsaid_none hpend] at hs ⊢
    rw [hmsgs', Function.update_of_ne hxe]
    exact hs
  · cases hpend.symm.trans hp
  · have hs := hsaid e y hy
    rw [Printing.unsaid_none hpend] at hs
    rw [Printing.messages_print, hmsgs, h.printed, hcommit]
    unfold executedMessages
    rw [List.flatMap_append, List.flatMap_singleton, ← hs]
    congr 1
    exact (List.append_nil _).symm
  · rw [hcommit, List.map_append, h.commits, hc, List.map_singleton, h.valid.subject hy]

/-- A step in which nothing is printed. -/
theorem congr (h : Ledgered s o l) (hc : Pe.Calm s s') : Ledgered s' o l := by
  refine ⟨h.valid, fun e => (h.live e).trans (hc.standing e).symm,
    fun e he => h.silent e fun hs => he ((hc.standing e).mpr hs), fun e x hx => ?_, fun p hp => ?_,
    h.printed, h.commits.trans hc.commits.symm⟩
  · have hun : o.unsaid s' e = o.unsaid s e := by
      unfold Printing.unsaid
      rw [hc.pending]
    rw [hun]
    exact h.said e x hx
  · obtain ⟨hs, hops⟩ := h.calls p (hc.pending ▸ hp)
    exact ⟨(hc.standing p.1).mpr hs, hops⟩

/-- What any step of the PE does. -/
theorem step (h : Ledgered s o l) (he : Pe.Effect m.toSimModel s s')
    (hstock : (m.print s s' o).InStock) :
    Ledgered s' (m.print s s' o) (m.account s s' l) := by
  cases he with
  | keep hstart hundo hc hgone ht hst => exact h.keep hstart hundo hc hgone ht hst hstock
  | start hstart hundo hc hgone hsp hpend hnot hst =>
      exact h.start hstart hundo hc hgone hsp hpend hnot hst
  | undo hstart hundo hc hgone ht hpend _ hst =>
      exact h.undo hstart hundo hc hgone ht hpend hst hstock
  | commit hstart hundo hc hfreed hbuf ht hpend hs hst =>
      exact h.commit hstart hundo hc hfreed hbuf ht hpend hs hst hstock

end Ledgered

/-! ## The optimistic schedulers -/

namespace System

variable {m : PrintModel T S M R}

/-- What holds of a PE with its buffers, its executions and its last test. -/
structure PrintedPe (m : PrintModel T S M R) (s : Pe T S M R)
    (r : Printing T M × Executions T M) (g : Option (WindowTest T S M R)) : Prop where
  tested : TestedPe m.toSimModel g s
  inTime : s.InTime m.toSimModel
  finishing : Finishing m.toSimModel g s
  inHand : Pe.Holding s
  placed : Pe.Placed m.toSimModel s
  stocked : r.1.Stocked
  ledger : r.1.InStock → Ledgered s r.1 r.2

namespace PrintedPe

variable {s s' : Pe T S M R} {r : Printing T M × Executions T M}
  {g : Option (WindowTest T S M R)}

theorem start (hm : m.synch = .optimistic ∨ m.synch = .optimisticRealtime) (i : Nat) :
    PrintedPe m (Pe.start m.toSimModel i (Pe.program m.toSimModel i))
      (Printing.start, ExecutionLedger.empty) none where
  tested := TestedPe.start hm i
  inTime := Pe.InTime.start m.toSimModel i _
  finishing := Finishing.start hm i
  inHand := Pe.Holding.start m.toSimModel i _
  placed := Pe.Placed.start m.toSimModel i _
  stocked := Printing.Stocked.start
  ledger _ := by
    refine ⟨.empty, fun e => ?_, fun _ _ => rfl, nofun, nofun, rfl, rfl⟩
    refine ⟨?_, ?_⟩
    · rintro ⟨x, hx⟩
      cases hx
    · rintro (⟨k, he⟩ | he | ⟨-, he⟩)
      · cases he
      · cases he
      · cases he

/-- A step of a PE's own program, or the arrival of a message. -/
theorem step (hm : m.synch = .optimistic ∨ m.synch = .optimisticRealtime)
    (h : PrintedPe m s r g) {i : Input T M} (hi : ∀ c, i ≠ .call c)
    (hw : ∀ src w, i = .recv src w → w.ev.InTime m.toSimModel)
    (hs : s.step m.toSimModel i = .ok s') :
    PrintedPe m s' (m.print s s' r.1, m.account s s' r.2) (s.noteTest s' g) where
  tested := h.tested.step hi hs
  inTime := h.inTime.step hw hs
  finishing := h.finishing.step hm h.tested h.inTime hi hs
  inHand := h.inHand.step hs
  placed := h.placed.step h.inHand hs
  stocked := m.print_stocked s s' h.stocked
  ledger hstock := by
    have heffect : Pe.Effect m.toSimModel s s' := .of_step h.placed h.inHand
      (fun left hp => (h.finishing.batch _ _ hp).1 rfl)
      (fun left lp ops hp => (h.finishing.handler _ _ _ _ hp).1 rfl) hs
    exact (h.ledger (Ledgered.print_inStock hstock)).step heffect hstock

/-- A reduction. -/
theorem reduceDone (h : PrintedPe m s r g) {red : Reduction} (hat : s.At (.reduce red))
    (out : Outcome T) : PrintedPe m (s.reduceDone red out) r g := by
  have hs : s.step m.toSimModel (.outcome out) = .ok (s.reduceDone red out) := by
    obtain ⟨hn, hr, hp⟩ := hat
    unfold Pe.step
    rw [hn, hr]
    show s.phaseStep m.toSimModel s.phase (.outcome out) = _
    rw [hp]
    rfl
  have hcalm := Pe.Calm.reduceDone (Pe.Holding.outside_of_at hat nofun) red out
  exact ⟨h.tested.reduceDone hat out, h.inTime.reduceDone red out, h.finishing.reduceDone hat out,
    h.inHand.step hs, h.placed.step h.inHand hs, h.stocked,
    fun hstock => (h.ledger hstock).congr hcalm⟩

end PrintedPe

theorem print_self {s s' : System T S M R} {l : SystemInput T M} {i : Nat}
    (hl : l.actor = some i) (r : Nat → Printing T M × Executions T M) :
    print m s l s' r i = (m.print (s i) (s' i) (r i).1, m.account (s i) (s' i) (r i).2) := by
  cases l with
  | pe j inp =>
      cases hl
      exact Function.update_self ..
  | deliver j src =>
      cases hl
      exact Function.update_self ..
  | reduce red => cases hl

theorem print_of_ne {s s' : System T S M R} {l : SystemInput T M} {i : Nat}
    (hl : l.actor ≠ some i) (r : Nat → Printing T M × Executions T M) :
    print m s l s' r i = r i := by
  cases l with
  | pe j inp => exact Function.update_of_ne (fun hi => hl (congrArg some hi.symm)) ..
  | deliver j src => exact Function.update_of_ne (fun hi => hl (congrArg some hi.symm)) ..
  | reduce red => rfl

/-- A step of the system, with the buffers, the executions and the last tests of all PEs. -/
theorem printedPe_step (hm : m.synch = .optimistic ∨ m.synch = .optimisticRealtime)
    {s s' : System T S M R} {l : SystemInput T M} {r : Nat → Printing T M × Executions T M}
    {g : Nat → Option (WindowTest T S M R)} (h : ∀ i, PrintedPe m (s i) (r i) (g i))
    (hs : s.step m.toSimModel l = .ok s') (i : Nat) :
    PrintedPe m (s' i) (print m s l s' r i) (s.noteTests l s' g i) := by
  cases step_of hs i with
  | own hl hc hw hp =>
      rw [print_self hl, noteTests_self hl]
      refine (h i).step hm hc (fun src w hrecv => ?_) hp
      obtain ⟨x, hx, hxw⟩ := inFlight_mem (hw src w hrecv)
      exact hxw ▸ (h src).inTime.wire x hx
  | reduced hne hat hi =>
      rw [print_of_ne hne, noteTests_of_ne hne, hi]
      exact (h i).reduceDone hat _
  | other hne hi =>
      rw [print_of_ne hne, noteTests_of_ne hne, hi]
      exact h i

theorem PrintedRun.printedPe (hm : m.synch = .optimistic ∨ m.synch = .optimisticRealtime)
    {a : System T S M R × (Nat → Printing T M × Executions T M)} (h : PrintedRun m a) (i : Nat) :
    ∃ g, PrintedPe m (a.1 i) (a.2 i) g := by
  have htests : ∃ g, Recorded (fun s l s' r => (print m s l s' r.1, s.noteTests l s' r.2))
      (· = System.start m.toSimModel) (fun a l b => a.step m.toSimModel l = .ok b)
      (fun _ => (Printing.start, ExecutionLedger.empty), fun _ => none) (a.1, a.2, g) := h.pair
  obtain ⟨g, hg⟩ := htests
  refine ⟨g i, ReachableVia.invariant
    (P := fun a => ∀ i, PrintedPe m (a.1 i) (a.2.1 i) (a.2.2 i)) ?_ ?_ hg i⟩
  · rintro ⟨s, r, g⟩ ⟨rfl, hrec⟩ i
    have hr : r = fun _ => (Printing.start, ExecutionLedger.empty) := congrArg Prod.fst hrec
    have hg : g = fun _ => none := congrArg Prod.snd hrec
    rw [hr, hg]
    exact PrintedPe.start hm i
  · rintro ⟨s, r, g⟩ l ⟨s', r', g'⟩ hinv - ⟨hs, hrec⟩ i
    have hr : r' = print m s l s' r := congrArg Prod.fst hrec
    have hg : g' = s.noteTests l s' g := congrArg Prod.snd hrec
    rw [hr, hg]
    exact printedPe_step hm hinv hs i

end System

/-! ## The debug scheduler -/

namespace PrintModel

variable {m : PrintModel T S M R} {toSig : TwEventSig T}

/-- A turn of the debug scheduler prints no message and commits nothing. -/
theorem debugStep_quiet {p q : Bool × Pe T S M R}
    (hs : Pe.debugStep m.toSerialModel toSig p = .ok q) : q.2.commits = p.2.commits := by
  unfold Pe.debugStep at hs
  split at hs
  · unfold Pe.debugTurn at hs
    split at hs
    · cases hs
      rfl
    next cev s₁ hd =>
      obtain ⟨-, rfl⟩ := Pe.twPqDequeue_some hd
      dsimp only at hs
      split at hs
      · cases hs
      next s₂ hs₂ =>
        cases hs
        exact (Pe.forward_same hs₂).2
  · unfold Pe.kpRollbackLoop at hs
    split at hs
    · cases hs
      rfl
    next e rest hq =>
      split at hs
      · split at hs
        next s₁ hs₁ =>
          cases hs
          rw [Pe.afterRollback_eq]
          exact (Pe.eventRollback_same hs₁).2
        · cases hs
      · cases hs
        rfl

theorem printDebug_quiet (m : PrintModel T S M R) (toSig : TwEventSig T) (p q : Bool × Pe T S M R)
    (o : Printing T M) :
    (m.printDebug toSig p q o).messages = o.messages ∧
      (o.Stocked → (m.printDebug toSig p q o).Stocked) := by
  unfold printDebug
  split
  · split
    · refine ⟨?_, fun h => .freeAll (h.speakAll _ _ _) _ _⟩
      rw [Printing.messages_dropAll, Printing.messages_speakAll]
    · exact ⟨rfl, id⟩
  · split
    · split
      · refine ⟨?_, fun h => .freeAll (h.twFreeOutputMessages _ _) _ _⟩
        rw [Printing.messages_dropAll, Printing.messages_drop]
      · exact ⟨rfl, id⟩
    · exact ⟨rfl, id⟩

/-- The debug scheduler commits nothing, and it prints nothing of what its handlers say. -/
theorem PrintedDebug.quiet {a : (Bool × Pe T S M R) × Printing T M}
    (h : m.PrintedDebug toSig a) :
    a.2.Stocked ∧ a.2.messages = [] ∧ a.1.2.commits = [] := by
  refine ReachableVia.invariant
    (P := fun a => a.2.Stocked ∧ a.2.messages = [] ∧ a.1.2.commits = []) ?_ ?_ h
  · rintro ⟨⟨flag, s⟩, o⟩ ⟨hp, ho⟩
    dsimp only at hp ho ⊢
    rw [ho]
    refine ⟨.start, rfl, ?_⟩
    cases hr : Pe.serialStart m.toSimModel with
    | error e =>
        rw [hr] at hp
        cases hp
    | ok s₁ =>
        rw [hr] at hp
        cases hp
        exact (Pe.serialStart_same hr).2
  · rintro ⟨p, o⟩ u ⟨q, o'⟩ ⟨hstock, hmsgs, hcom⟩ - ⟨hs, ho⟩
    dsimp only at hs ho hstock hmsgs hcom ⊢
    obtain ⟨hquiet, hkeep⟩ := m.printDebug_quiet toSig p q o
    rw [ho]
    exact ⟨hkeep hstock, hquiet.trans hmsgs, (debugStep_quiet hs).trans hcom⟩

end PrintModel

/-! ## All optimistic schedulers -/

/-- In every run of the optimistic schedulers every `tw_out` is in one list, on the `output` of
its own KP or in the `out_msgs` of an event; and while no KP runs out of them, the messages
printed are those of the committed executions, as far as they fit into a buffer, each once, in
the order of the commits and of the calls.  `tw_scheduler_optimistic_debug` neither commits nor
prints. -/
theorem output_committed (m : PrintModel T S M R) :
    (m.synch = .optimistic ∨ m.synch = .optimisticRealtime →
      ∀ s r, System.PrintedRun m (s, r) → ∀ i,
        (r i).1.Stocked ∧
        ((r i).1.InStock →
          (r i).1.messages = executedMessages (r i).2.committed ∧
          (r i).2.committed.map Execution.subject = (s i).commits ∧
          (r i).2.committed.Nodup ∧ ∀ x ∈ (r i).2.committed, x ∉ (r i).2.undone)) ∧
    ∀ toSig p o, m.PrintedDebug toSig (p, o) →
      o.Stocked ∧ o.messages = [] ∧ p.2.commits = [] := by
  refine ⟨fun hm s r hrun i => ?_, fun toSig p o hrun => hrun.quiet⟩
  obtain ⟨g, h⟩ := hrun.printedPe hm i
  refine ⟨h.stocked, fun hstock => ?_⟩
  have hledger := h.ledger hstock
  exact ⟨hledger.printed, hledger.commits, hledger.valid.nodup_committed,
    fun x hx => hledger.valid.not_undone hx⟩

/-- The events of `strayModel` print `n` characters, and as many more as their message says. -/
def printModel (n : Nat) : PrintModel Int Nat Nat Nat :=
  { strayModel with
    eventCalls := fun lp now st cv msg =>
      .output lp (List.replicate (n + msg) 'a') ::
        (strayModel.event lp now st cv msg).ops.map .kernel
    eventCalls_ops := fun lp now st cv msg => by
      rw [List.filterMap_cons_none rfl, List.filterMap_map]
      exact List.filterMap_some }

/-- The message of the execution that is undone is not printed. -/
theorem output_committed_run :
    ∃ s r, System.PrintedRun (printModel 1) (s, r) ∧ (s 0).commits.length = 4 ∧
      executedMessages (r 0).2.undone = [['a']] ∧
      executedMessages (r 0).2.committed = [['a'], ['a', 'a'], ['a', 'a', 'a'], ['a']] := by
  have hrun : ∃ a, System.PrintedRun (printModel 1) a ∧
      decide ((a.2 0).1.InStock ∧ (a.1 0).commits.length = 4 ∧
        executedMessages (a.2 0).2.undone = [['a']] ∧
        (a.2 0).1.messages = [['a'], ['a', 'a'], ['a', 'a', 'a'], ['a']]) = true :=
    Recorded.exists_of_runList _ straySteps rfl (by decide +kernel)
  obtain ⟨⟨s, r⟩, hr, ht⟩ := hrun
  obtain ⟨hstock, hcom, hundone, hmsgs⟩ := of_decide_eq_true ht
  obtain ⟨hprinted, -⟩ := ((output_committed (printModel 1)).1 (.inl rfl) s r hr 0).2 hstock
  exact ⟨s, r, hr, hcom, hundone, hprinted.symm.trans hmsgs⟩

/-- A message that does not fit into a buffer is not printed as the handler gave it. -/
theorem output_cut :
    ∃ s r, System.PrintedRun (printModel 240) (s, r) ∧
      (∀ i < (printModel 240).npe, (r i).1.InStock) ∧
      (r 0).1.messages ≠
        (r 0).2.committed.flatMap fun x => x.record.filterMap HandlerCall.text := by
  have hrun : ∃ a, System.PrintedRun (printModel 240) a ∧
      decide ((a.2 0).1.InStock ∧ (a.2 0).1.messages ≠
        (a.2 0).2.committed.flatMap fun x => x.record.filterMap HandlerCall.text) = true :=
    Recorded.exists_of_runList _ straySteps rfl (by decide +kernel)
  obtain ⟨⟨s, r⟩, hr, ht⟩ := hrun
  obtain ⟨hstock, hne⟩ := of_decide_eq_true ht
  refine ⟨s, r, hr, fun i hi => ?_, hne⟩
  rw [Nat.lt_one_iff.mp hi]
  exact hstock

end Ross

import Ross.Core.NetEvents
import Ross.Lib.CString
import Ross.Lib.ExecutionLedger

/-!
# Output that waits for its commit

`tw_output` of `tw-util.c` and the buffers of its messages, which wait on their event until it is
committed or undone.  Nothing but `tw_output` reads them, so they are kept beside the run, together
with the executions of events.
-/

namespace Ross

variable {T S M R : Type}

/-- `sizeof(message)` of a `tw_out`, with pointers of 8 bytes. -/
def messageSize : Nat := 256 - 2 * 8

/-- A call of a forward handler: of `tw_output` for an LP, with the text of the message, or into
the kernel. -/
inductive HandlerCall (T M : Type)
  | output (lp : Nat) (text : List Char)
  | kernel (op : HandlerOp T M)

/-- The call into the kernel. -/
def HandlerCall.op : HandlerCall T M → Option (HandlerOp T M)
  | .output _ _ => none
  | .kernel op => some op

/-- The text of a call of `tw_output`. -/
def HandlerCall.text : HandlerCall T M → Option (List Char)
  | .output _ text => some text
  | .kernel _ => none

/-- The message of a call of `tw_output`: what fits into a buffer, as a string. -/
def HandlerCall.message : HandlerCall T M → Option (List Char)
  | .output _ text => some (CString.stringAt (text.take (messageSize - 1)) 0)
  | .kernel _ => none

/-- A model whose forward handlers call `tw_output` between their calls into the kernel. -/
structure PrintModel (T S M R : Type) extends SerialModel T S M R where
  eventCalls : Nat → T → S → BitVec 32 → M → List (HandlerCall T M)
  eventCalls_ops : ∀ lp now st cv msg,
    (eventCalls lp now st cv msg).filterMap HandlerCall.op = (event lp now st cv msg).ops

/-! ## The buffers -/

/-- `tw_out`, the `index`-th buffer of the KP `owner`. -/
structure TwOut where
  owner : Nat
  index : Nat
  message : List Char

/-- `NUM_OUT_MESG`. -/
def numOutMesg : Nat := 2000

/-- What the functions of the buffers write to `stdout`: a message, the message of a KP without
buffers between its warnings, and the warning for a message that was cut. -/
inductive StdoutLine
  | message (text : List Char)
  | noBuffers (kp : Nat) (text : List Char)
  | tooLarge
deriving DecidableEq

/-- The line says that a KP has no buffer left. -/
def StdoutLine.outOfStock : StdoutLine → Bool
  | .noBuffers _ _ => true
  | _ => false

/-- The lists `output` of the KPs and `out_msgs` of the events, what was written to `stdout`, and
the calls that the handler in progress has still to make. -/
structure Printing (T M : Type) where
  output : Nat → List TwOut
  outMsgs : TwEvent T → List TwOut
  stdout : List StdoutLine
  calls : List (HandlerCall T M)

/-- `vsnprintf` into the `message` of a buffer. -/
def TwOut.format (out : TwOut) (text : List Char) : TwOut :=
  { out with message := text.take (messageSize - 1) }

/-- What `printf("%s")` writes of the message. -/
def TwOut.shown (out : TwOut) : List Char := CString.stringAt out.message 0

namespace Printing

/-- `init_output_messages`. -/
def initOutputMessages (kp : Nat) : List TwOut :=
  (List.range numOutMesg).map fun i => ⟨kp, i, []⟩

def start : Printing T M := ⟨initOutputMessages, fun _ => [], [], []⟩

/-- `tw_kp_put_back_output_buffer`. -/
def twKpPutBackOutputBuffer (o : Printing T M) (out : TwOut) : Printing T M :=
  { o with output := Function.update o.output out.owner (out :: o.output out.owner) }

variable [DecidableEq T]

/-- `tw_output` of the optimistic protocols, for an LP of the KP `kp` while the current event is
`cev`. -/
def twOutput (o : Printing T M) (kp : Nat) (cev : TwEvent T) (text : List Char) : Printing T M :=
  match o.output kp with
  | [] => { o with stdout := o.stdout ++ [.noBuffers kp text] }
  | out :: rest =>
      { o with
        output := Function.update o.output kp rest
        outMsgs := Function.update o.outMsgs cev (o.outMsgs cev ++ [out.format text])
        stdout := if text.length < messageSize then o.stdout else o.stdout ++ [.tooLarge] }

/-- One turn of the loop of `tw_free_output_messages`, which is at the buffer `out`. -/
def freeOutputMessage (e : TwEvent T) (printMessage : Bool) (o : Printing T M) (out : TwOut) :
    Printing T M :=
  { o with
    stdout := if printMessage then o.stdout ++ [StdoutLine.message out.shown] else o.stdout
    outMsgs := Function.update o.outMsgs e (o.outMsgs e).tail }.twKpPutBackOutputBuffer out

/-- `tw_free_output_messages`. -/
def twFreeOutputMessages (o : Printing T M) (e : TwEvent T) (printMessage : Bool) :
    Printing T M :=
  (o.outMsgs e).foldl (freeOutputMessage e printMessage) o

/-- The calls `cs` of the handler of `cev`, up to and including the next one into the kernel. -/
def speak (m : SimModel T S M R) (cev : TwEvent T) (o : Printing T M) :
    List (HandlerCall T M) → Printing T M
  | .output lp text :: cs => speak m cev (o.twOutput (m.kpOf lp) cev text) cs
  | .kernel _ :: cs => { o with calls := cs }
  | [] => { o with calls := [] }

/-- All calls `cs` of the handler of `cev`. -/
def speakAll (m : SimModel T S M R) (cev : TwEvent T) (o : Printing T M)
    (cs : List (HandlerCall T M)) : Printing T M :=
  cs.foldl (fun o c =>
    match c with
    | .output lp text => o.twOutput (m.kpOf lp) cev text
    | .kernel _ => o) o

end Printing

/-! ## What a step of a PE means for its executions -/

/-- The buffer that a pointer of the handler holds unsent. -/
def Handle.unsentEvent : Handle T M → Option (TwEvent T)
  | .buffer e _ => some e
  | _ => none

/-- The buffer that `tw_event_new` returned. -/
def Handle.newEvent : Handle T M → Option (TwEvent T)
  | .buffer e _ => some e
  | .sent e => e
  | .abort => none

namespace Pe

/-- The event whose handler a step of a batch calls. -/
def startsEvent (s s' : Pe T S M R) : Option (TwEvent T) :=
  match s.net, s.rollback, s.phase, s'.phase with
  | .off, none, .batch _ _, .handler _ _ _ _ => s'.curEvent
  | _, _, _, _ => none

/-- The calls into the kernel that the handler of `cev` is going to make when a batch of the PE
calls it; a suspended LP has its handler skipped. -/
def forwardOps [TwStime T] (m : SimModel T S M R) (s : Pe T S M R) (cev : TwEvent T) :
    List (HandlerOp T M) :=
  let s := s.dequeued m cev
  let lp := cev.destLp
  if (s.lp lp).suspendFlag then []
  else (m.event lp (s.twNow m lp) (s.lp lp).curState 0 (s.ev cev).msg).ops

/-- The event whose handler makes the step. -/
def speaker (s : Pe T S M R) : Option (TwEvent T) :=
  match s.net, s.rollback, s.phase with
  | .off, none, .handler _ _ _ _ => s.curEvent
  | _, _, _ => none

/-- The event for which a step enters `tw_event_rollback`. -/
def undoesEvent (s s' : Pe T S M R) : Option (TwEvent T) :=
  match s.rollback, s'.rollback with
  | none, some r => some r.event
  | _, _ => none

/-- The events that a step commits. -/
def newCommits (s s' : Pe T S M R) : List (TwEvent T) := s'.commits.drop s.commits.length

/-- The buffers that a step gives to `tw_event_free`; a committed event goes to the free list
without it. -/
def newFreed [DecidableEq T] (s s' : Pe T S M R) : List (TwEvent T) :=
  (s'.freed.drop s.freed.length).filter fun e => e ∉ s.newCommits s'

/-- The buffers that a step takes for new events.  The abort event is never current in a forward
handler, so no message waits on it. -/
def newBuffers (s s' : Pe T S M R) : List (TwEvent T) :=
  (s'.handles.drop s.handles.length).filterMap Handle.unsentEvent

end Pe

/-- The executions of events, with the calls of their handlers. -/
abbrev Executions (T M : Type) := ExecutionLedger (TwEvent T) (List (HandlerCall T M))

section Steps

variable [TwStime T]

namespace PrintModel

variable (m : PrintModel T S M R)

/-- All calls that the handler of `cev` is then going to make. -/
def forwardCalls (s : Pe T S M R) (cev : TwEvent T) : List (HandlerCall T M) :=
  let s := s.dequeued m.toSimModel cev
  let lp := cev.destLp
  if (s.lp lp).suspendFlag then []
  else m.eventCalls lp (s.twNow m.toSimModel lp) (s.lp lp).curState 0 (s.ev cev).msg

theorem forwardCalls_ops (s : Pe T S M R) (cev : TwEvent T) :
    (m.forwardCalls s cev).filterMap HandlerCall.op = s.forwardOps m.toSimModel cev := by
  unfold forwardCalls Pe.forwardOps
  dsimp only
  split
  · rfl
  · exact m.eventCalls_ops _ _ _ _ _

/-- The calls to make, once a step has called a handler. -/
def called (s s' : Pe T S M R) (o : Printing T M) : Printing T M :=
  match s.startsEvent s' with
  | some cev => { o with calls := m.forwardCalls s cev }
  | none => o

/-- The buffers once the handler in progress has spoken. -/
def spoken (s : Pe T S M R) (o : Printing T M) : Printing T M :=
  match s.speaker with
  | some cev => o.speak m.toSimModel cev o.calls
  | none => o

omit m in
/-- The buffers once `tw_event_rollback` is entered, if a step does so. -/
def takenBack (s s' : Pe T S M R) (o : Printing T M) : Printing T M :=
  match s.undoesEvent s' with
  | some e => o.twFreeOutputMessages e false
  | none => o

/-- The buffers after a step: the calls of `tw_output` that come before what the step does, then
its calls of `tw_free_output_messages`. -/
def print (s s' : Pe T S M R) (o : Printing T M) : Printing T M :=
  let o := takenBack s s' (m.spoken s (m.called s s' o))
  let o := (s.newCommits s').foldl (fun o e => o.twFreeOutputMessages e true) o
  (s.newFreed s' ++ s.newBuffers s').foldl (fun o e => o.twFreeOutputMessages e false) o

/-- The executions after a step: one starts when its handler is called and is undone when
`tw_event_rollback` is entered for its event. -/
def account (s s' : Pe T S M R) (l : Executions T M) : Executions T M :=
  let l := match s.startsEvent s' with
    | some cev => l.start cev (m.forwardCalls s cev)
    | none => l
  let l := match s.undoesEvent s' with
    | some e => l.undo e
    | none => l
  (s.newCommits s').foldl ExecutionLedger.commit l

/-- The buffers after a turn of `tw_scheduler_optimistic_debug`, which calls a handler or rolls an
event back. -/
def printDebug (toSig : TwEventSig T) (p q : Bool × Pe T S M R) (o : Printing T M) :
    Printing T M :=
  if p.1 then
    match p.2.twPqDequeue with
    | some (cev, s) =>
        let s := s.beginEvent m.toSimModel cev
        let lp := cev.destLp
        let cs := m.eventCalls lp (s.twNow m.toSimModel lp) (s.lp lp).curState (s.ev cev).cv
          (s.ev cev).msg
        (q.2.handles.filterMap Handle.newEvent).foldl
          (fun o e => o.twFreeOutputMessages e false) (o.speakAll m.toSimModel cev cs)
    | none => o
  else
    match p.2.queue (.peventQ 0) with
    | e :: _ =>
        if 0 ≤ twEventSigComparePtr e.sig toSig then
          (p.2.newFreed q.2).foldl (fun o e => o.twFreeOutputMessages e false)
            (o.twFreeOutputMessages e false)
        else o
    | [] => o

/-- The runs of `tw_scheduler_optimistic_debug`, which rolls back to `toSig`, with the buffers. -/
def PrintedDebug (toSig : TwEventSig T) : (Bool × Pe T S M R) × Printing T M → Prop :=
  Transition.Recorded (fun p (_ : Unit) q o => m.printDebug toSig p q o)
    (fun p => (Pe.serialStart m.toSimModel).map (Prod.mk true) = .ok p)
    (fun p _ q => Pe.debugStep m.toSerialModel toSig p = .ok q) Printing.start

end PrintModel

namespace System

/-- The buffers and the executions of all PEs after a step of the system. -/
def print (m : PrintModel T S M R) (s : System T S M R) (l : SystemInput T M)
    (s' : System T S M R) (r : Nat → Printing T M × Executions T M) :
    Nat → Printing T M × Executions T M :=
  let printed (i : Nat) : Printing T M × Executions T M :=
    (m.print (s i) (s' i) (r i).1, m.account (s i) (s' i) (r i).2)
  match l with
  | .pe i _ => Function.update r i (printed i)
  | .deliver i _ => Function.update r i (printed i)
  | .reduce _ => r

/-- The states of all runs, with the buffers and the executions of each PE. -/
def PrintedRun (m : PrintModel T S M R) :
    System T S M R × (Nat → Printing T M × Executions T M) → Prop :=
  Transition.Recorded (print m) (· = start m.toSimModel)
    (fun a l b => a.step m.toSimModel l = .ok b) fun _ => (Printing.start, ExecutionLedger.empty)

end System

end Steps

/-! ## What the buffers hold -/

namespace Printing

/-- The messages written to `stdout`, in order. -/
def messages (o : Printing T M) : List (List Char) :=
  o.stdout.filterMap fun
    | .message text => some text
    | _ => none

/-- No KP ran out of buffers. -/
def InStock (o : Printing T M) : Prop := ∀ line ∈ o.stdout, line.outOfStock = false

instance (o : Printing T M) : Decidable o.InStock :=
  inferInstanceAs (Decidable (∀ line ∈ o.stdout, line.outOfStock = false))

/-- The lists that buffers are linked in: the `output` of a KP, or the `out_msgs` of an event. -/
def places (o : Printing T M) : Nat ⊕ TwEvent T → List (Nat × Nat)
  | .inl kp => (o.output kp).map fun out => (out.owner, out.index)
  | .inr e => (o.outMsgs e).map fun out => (out.owner, out.index)

end Printing

/-- The messages of the calls of `tw_output` among `cs`. -/
def HandlerCall.messages (cs : List (HandlerCall T M)) : List (List Char) :=
  cs.filterMap HandlerCall.message

/-! ## What the functions do -/

namespace Printing

variable {o : Printing T M} {cev e : TwEvent T}

/-- `stdout` only grows. -/
theorem InStock.of_append {o' : Printing T M} {l : List StdoutLine} (h : o'.InStock)
    (ho : o'.stdout = o.stdout ++ l) : o.InStock := fun line hline =>
  h line (ho ▸ List.mem_append_left l hline)

theorem messages_append {o' : Printing T M} {l : List StdoutLine}
    (ho : o'.stdout = o.stdout ++ l) : o'.messages = o.messages ++ l.filterMap fun
      | .message text => some text
      | _ => none := by
  unfold messages
  rw [ho, List.filterMap_append]

section Functions

variable [DecidableEq T]

/-- A call of `tw_output` in a KP that has buffers left. -/
theorem twOutput_ok {kp : Nat} {text : List Char} (h : (o.twOutput kp cev text).InStock) :
    o.InStock ∧ ∃ out rest l, o.output kp = out :: rest ∧
      o.twOutput kp cev text = { o with
        output := Function.update o.output kp rest
        outMsgs := Function.update o.outMsgs cev (o.outMsgs cev ++ [out.format text])
        stdout := o.stdout ++ l } := by
  unfold twOutput at h ⊢
  split at h
  · exact nomatch h (.noBuffers kp text) (List.mem_append_right _ (List.mem_singleton_self _))
  next out rest hout =>
    have hl : ∃ l : List StdoutLine,
        (if text.length < messageSize then o.stdout else o.stdout ++ [.tooLarge]) =
          o.stdout ++ l := by
      split
      · exact ⟨[], (List.append_nil _).symm⟩
      · exact ⟨_, rfl⟩
    obtain ⟨l, heq⟩ := hl
    exact ⟨h.of_append heq, out, rest, l, hout, by rw [heq]⟩

/-- What the loop of `tw_free_output_messages` leaves of the buffers it has still to free. -/
theorem foldl_freeOutputMessage (b : Bool) (l : List TwOut) (o : Printing T M)
    (hl : o.outMsgs e = l) :
    (l.foldl (freeOutputMessage e b) o).outMsgs = Function.update o.outMsgs e [] ∧
      (l.foldl (freeOutputMessage e b) o).stdout =
        o.stdout ++ (if b then l.map fun out => .message out.shown else []) := by
  induction l generalizing o with
  | nil =>
      refine ⟨?_, ?_⟩
      · have hself := Function.update_eq_self e o.outMsgs
        rw [hl] at hself
        exact hself.symm
      · cases b <;> exact (List.append_nil _).symm
  | cons out l ih =>
      have htail : (o.freeOutputMessage e b out).outMsgs e = l := by
        show Function.update o.outMsgs e (o.outMsgs e).tail e = l
        rw [Function.update_self, hl, List.tail_cons]
      obtain ⟨hmsgs, hout⟩ := ih _ htail
      refine ⟨hmsgs.trans (Function.update_idem ..), hout.trans ?_⟩
      cases b
      · rfl
      · show (o.stdout ++ [_]) ++ _ = _
        rw [List.append_assoc]
        rfl

theorem twFreeOutputMessages_outMsgs (o : Printing T M) (e : TwEvent T) (b : Bool) :
    (o.twFreeOutputMessages e b).outMsgs = Function.update o.outMsgs e [] :=
  (foldl_freeOutputMessage b _ o rfl).1

theorem twFreeOutputMessages_stdout (o : Printing T M) (e : TwEvent T) (b : Bool) :
    (o.twFreeOutputMessages e b).stdout =
      o.stdout ++ (if b then (o.outMsgs e).map fun out => .message out.shown else []) :=
  (foldl_freeOutputMessage b _ o rfl).2

/-- Nothing is printed of an event whose messages are dropped. -/
theorem messages_drop (o : Printing T M) (e : TwEvent T) :
    (o.twFreeOutputMessages e false).messages = o.messages := by
  rw [messages_append (o.twFreeOutputMessages_stdout e false)]
  exact List.append_nil _

/-- The messages of an event are printed in the order of the calls. -/
theorem messages_print (o : Printing T M) (e : TwEvent T) :
    (o.twFreeOutputMessages e true).messages = o.messages ++ (o.outMsgs e).map TwOut.shown := by
  rw [messages_append (o.twFreeOutputMessages_stdout e true), if_pos rfl, List.filterMap_map]
  exact congrArg (o.messages ++ ·) (congrFun (List.filterMap_eq_map (f := TwOut.shown)) _)

theorem messages_dropAll (es : List (TwEvent T)) :
    (es.foldl (fun o e => o.twFreeOutputMessages e false) o).messages = o.messages := by
  induction es generalizing o with
  | nil => rfl
  | cons e es ih => exact ih.trans (o.messages_drop e)

/-- A call of `tw_output` prints nothing but warnings. -/
theorem messages_twOutput {kp : Nat} {text : List Char} :
    (o.twOutput kp cev text).messages = o.messages := by
  unfold twOutput
  split
  · exact (messages_append rfl).trans (List.append_nil _)
  · unfold messages
    dsimp only
    split
    · rfl
    · rw [List.filterMap_append]
      exact List.append_nil _

theorem messages_speakAll (m : SimModel T S M R) (cs : List (HandlerCall T M)) :
    (o.speakAll m cev cs).messages = o.messages := by
  induction cs generalizing o with
  | nil => rfl
  | cons c cs ih =>
      cases c with
      | kernel op => exact ih
      | output lp text => exact ih.trans messages_twOutput

/-- Events without messages may be freed. -/
theorem free_silent {es : List (TwEvent T)} (h : ∀ e ∈ es, o.outMsgs e = []) :
    es.foldl (fun o e => o.twFreeOutputMessages e false) o = o := by
  induction es with
  | nil => rfl
  | cons e es ih =>
      have he : o.twFreeOutputMessages e false = o := by
        unfold twFreeOutputMessages
        rw [h e List.mem_cons_self]
        rfl
      rw [List.foldl_cons, he]
      exact ih fun x hx => h x (List.mem_cons_of_mem e hx)

theorem InStock.of_free {b : Bool} {es : List (TwEvent T)}
    (h : (es.foldl (fun o e => o.twFreeOutputMessages e b) o).InStock) : o.InStock := by
  induction es generalizing o with
  | nil => exact h
  | cons e es ih => exact (ih h).of_append (o.twFreeOutputMessages_stdout e b)

/-- The calls of a handler up to the next one into the kernel: their messages join those of the
event, and the calls that follow are left. -/
theorem speak_ok (m : SimModel T S M R) {cs : List (HandlerCall T M)}
    (h : (o.speak m cev cs).InStock) :
    o.InStock ∧ (o.speak m cev cs).messages = o.messages ∧
      (o.speak m cev cs).calls.filterMap HandlerCall.op =
        (cs.filterMap HandlerCall.op).tail ∧
      (cs.filterMap HandlerCall.op = [] → (o.speak m cev cs).calls = []) ∧
      ∃ new, (o.speak m cev cs).outMsgs =
          Function.update o.outMsgs cev (o.outMsgs cev ++ new) ∧
        new.map TwOut.shown ++ HandlerCall.messages (o.speak m cev cs).calls =
          HandlerCall.messages cs := by
  induction cs generalizing o with
  | nil =>
      refine ⟨h, rfl, rfl, fun _ => rfl, [], ?_, rfl⟩
      rw [List.append_nil, Function.update_eq_self]
      rfl
  | cons c cs ih =>
      cases c with
      | kernel op =>
          refine ⟨h, rfl, rfl, nofun, [], ?_, rfl⟩
          rw [List.append_nil, Function.update_eq_self]
          rfl
      | output lp text =>
          obtain ⟨hstock, hmsgs, hops, hend, new, hnew, htext⟩ :=
            ih (o := o.twOutput (m.kpOf lp) cev text) h
          obtain ⟨hstock, out, rest, l, -, heq⟩ := twOutput_ok hstock
          refine ⟨hstock, hmsgs.trans messages_twOutput, hops, hend, out.format text :: new, ?_, ?_⟩
          · refine hnew.trans ?_
            rw [heq]
            dsimp only
            rw [Function.update_idem, Function.update_self, List.append_assoc]
            rfl
          · show _ :: (new.map TwOut.shown ++
              HandlerCall.messages ((o.twOutput (m.kpOf lp) cev text).speak m cev cs).calls) = _
            rw [htext]
            rfl

end Functions

end Printing

end Ross

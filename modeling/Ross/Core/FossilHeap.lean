import Ross.Core.State
import Ross.Lib.DoublyLinked

/-!
# Fossil collection on linked lists

`tw_eventq_push_list` and `tw_eventq_fossil_collect` as writes to the links of the
events.  A pointer is a number; following `NULL` stops, and a loop has a bound on its
turns.  The calls of commit handlers and of `tw_hash_remove` are recorded.
-/

namespace Ross

open DoublyLinked

variable {T : Type} {nkp : Nat}

/-- The stops of `tw_eventq_debug`, a `NULL` that is followed, and the bound on the
turns of a loop. -/
inductive QueueError
  | prevPointer
  | tailPointer
  | size
  | nullPointer
  | outOfTurns
deriving DecidableEq

/-- The fields of a `tw_event` that fossil collection reads or writes. -/
structure EventCell (T : Type) where
  sig : TwEventSig T
  prev : Option Nat
  next : Option Nat
  causedByMe : Option Nat
  causeNext : Option Nat
  owner : TwEventOwner
  destLp : Nat
  eventId : Nat
  remote : Bool

/-- The events in memory, the free list, the lists of the KPs, the commit handlers that
were called, and the events taken out of the remote-event index. -/
structure FossilHeap (T : Type) (nkp : Nat) where
  event : Nat → EventCell T
  freeQ : Queue Nat
  peventQ : Fin nkp → Queue Nat
  committed : List Nat
  unhashed : List Nat

/-- The compile-time switch, and the LPs whose type has a commit handler. -/
structure FossilConfig where
  rossDebug : Bool
  commits : Nat → Bool

namespace FossilHeap

/-- The two links of the events. -/
def links (event : Nat → EventCell T) : Links Nat :=
  ⟨fun e => (event e).prev, fun e => (event e).next⟩

/-- The loop of `tw_eventq_debug`; a list longer than `size` fails its last test. -/
def debugLoop (event : Nat → EventCell T) : Nat → Option Nat → Option Nat → Nat →
    Except QueueError (Option Nat × Nat)
  | _, none, last, cnt => .ok (last, cnt)
  | 0, some _, _, _ => .error .size
  | n + 1, some e, last, cnt =>
      if (event e).prev ≠ last then .error .prevPointer
      else debugLoop event n (event e).next (some e) (cnt + 1)

/-- `tw_eventq_debug`. -/
def twEventqDebug (cfg : FossilConfig) (event : Nat → EventCell T) (q : Queue Nat) :
    Except QueueError Unit :=
  if cfg.rossDebug then
    match debugLoop event q.size q.head none 0 with
    | .error e => .error e
    | .ok (last, cnt) =>
        if q.tail ≠ last then .error .tailPointer
        else if cnt ≠ q.size then .error .size
        else .ok ()
  else .ok ()

/-- `e->prev = p`. -/
def setPrev (event : Nat → EventCell T) (e : Nat) (p : Option Nat) : Nat → EventCell T :=
  Function.update event e { event e with prev := p }

/-- `e->next = n`. -/
def setNext (event : Nat → EventCell T) (e : Nat) (n : Option Nat) : Nat → EventCell T :=
  Function.update event e { event e with next := n }

/-- `if(q->head) q->head->prev = e`. -/
def setHeadPrev (event : Nat → EventCell T) (q : Queue Nat) (e : Nat) : Nat → EventCell T :=
  match q.head with
  | some h => setPrev event h (some e)
  | none => event

/-- `tw_eventq_unshift`. -/
def twEventqUnshift (cfg : FossilConfig) (event : Nat → EventCell T) (q : Queue Nat) (e : Nat) :
    Except QueueError ((Nat → EventCell T) × Queue Nat) := do
  twEventqDebug cfg event q
  let event := setHeadPrev (setNext (setPrev event e none) e q.head) q e
  let q : Queue Nat := ⟨some e, q.tail.or (some e), q.size + 1⟩
  twEventqDebug cfg event q
  return (event, q)

/-- A field of the event `e` is written. -/
def setEvent (s : FossilHeap T nkp) (e : Nat) (c : EventCell T) : FossilHeap T nkp :=
  { s with event := Function.update s.event e c }

/-- `tw_event_free`. -/
def twEventFree (cfg : FossilConfig) (s : FossilHeap T nkp) (e : Nat) :
    Except QueueError (FossilHeap T nkp) := do
  let s := s.setEvent e { s.event e with owner := .peFreeQ }
  let (event, freeQ) ← twEventqUnshift cfg s.event s.freeQ e
  return { s with event, freeQ }

/-- The loop of `tw_eventq_push_list` over the chain of children. -/
def childLoop (cfg : FossilConfig) : Nat → Option Nat → FossilHeap T nkp →
    Except QueueError (FossilHeap T nkp)
  | _, none, s => .ok s
  | 0, some _, _ => .error .outOfTurns
  | n + 1, some cev, s => do
      let next := (s.event cev).causeNext
      let s := s.setEvent cev { s.event cev with causeNext := none }
      let s ← if (s.event cev).owner = .peSeventQ then twEventFree cfg s cev else .ok s
      childLoop cfg n next s

/-- What `tw_eventq_push_list` does with an event of the list. -/
def commitEvent (cfg : FossilConfig) (n : Nat) (s : FossilHeap T nkp) (e : Nat) :
    Except QueueError (FossilHeap T nkp) := do
  let s := if cfg.commits (s.event e).destLp then { s with committed := s.committed ++ [e] } else s
  let s := if (s.event e).eventId ≠ 0 ∧ (s.event e).remote then
    { s with unhashed := s.unhashed ++ [e] } else s
  match (s.event e).causedByMe with
  | none => return s
  | some cev =>
      let s ← childLoop cfg n (some cev) s
      return s.setEvent e { s.event e with causedByMe := none, owner := .peFreeQ }

/-- The loop of `tw_eventq_push_list` from `e` back to `h`. -/
def commitLoop (cfg : FossilConfig) (n : Nat) (h : Nat) : Nat → Nat → FossilHeap T nkp →
    Except QueueError (FossilHeap T nkp)
  | 0, _, _ => .error .outOfTurns
  | m + 1, e, s => do
      let s ← commitEvent cfg n s e
      if e = h then return s
      else
        match (s.event e).prev with
        | none => .error .nullPointer
        | some p => commitLoop cfg n h m p s

/-- `tw_eventq_push_list` onto the free list. -/
def twEventqPushList (cfg : FossilConfig) (n : Nat) (s : FossilHeap T nkp) (h t cnt : Nat) :
    Except QueueError (FossilHeap T nkp) := do
  twEventqDebug cfg s.event s.freeQ
  let event := setPrev (setHeadPrev (setNext s.event t s.freeQ.head) s.freeQ t) h none
  let freeQ : Queue Nat := ⟨some h, s.freeQ.tail.or (some t), s.freeQ.size + cnt⟩
  let s ← commitLoop cfg n h n t { s with event, freeQ }
  twEventqDebug cfg s.event s.freeQ
  return s

section Collect

variable [TwStime T]

/-- The search of `tw_eventq_fossil_collect` for the event that stays, with the number
of events behind it. -/
def searchLoop (event : Nat → EventCell T) (gvt : TwEventSig T) : Nat → Option Nat → Nat →
    Except QueueError (Option Nat × Nat)
  | _, none, cnt => .ok (none, cnt)
  | 0, some _, _ => .error .outOfTurns
  | n + 1, some h, cnt =>
      if twEventSigComparePtr (event h).sig gvt < 0 then
        searchLoop event gvt n (event h).prev (cnt + 1)
      else .ok (some h, cnt)

/-- `tw_eventq_fossil_collect` for the list of a KP. -/
def twEventqFossilCollect (cfg : FossilConfig) (n : Nat) (gvt : TwEventSig T)
    (s : FossilHeap T nkp) (kp : Fin nkp) : Except QueueError (FossilHeap T nkp) :=
  let q := s.peventQ kp
  match q.tail with
  | none => .ok s
  | some t =>
      if 0 ≤ twEventSigComparePtr (s.event t).sig gvt then .ok s
      else
        match q.head with
        | none => .error .nullPointer
        | some h =>
            if twEventSigComparePtr (s.event h).sig gvt < 0 then do
              let s ← twEventqPushList cfg n s h t q.size
              return { s with peventQ := Function.update s.peventQ kp ⟨none, none, 0⟩ }
            else do
              let (h, cnt) ← searchLoop s.event gvt n (s.event t).prev 1
              match h with
              | none => .error .nullPointer
              | some k =>
                  match (s.event k).next with
                  | none => .error .nullPointer
                  | some h =>
                      let s := { s with
                        event := setNext s.event k none
                        peventQ := Function.update s.peventQ kp ⟨q.head, some k, q.size - cnt⟩ }
                      twEventqPushList cfg n s h t cnt

/-- The loop of `tw_pe_fossil_collect` over the KPs. -/
def fossilLoop (cfg : FossilConfig) (n : Nat) (gvt : TwEventSig T) :
    List (Fin nkp) → FossilHeap T nkp → Except QueueError (FossilHeap T nkp)
  | [], s => .ok s
  | kp :: kps, s => do
      let s ← twEventqFossilCollect cfg n gvt s kp
      fossilLoop cfg n gvt kps s

/-- `tw_pe_fossil_collect`. -/
def twPeFossilCollect (cfg : FossilConfig) (n : Nat) (gvt : TwEventSig T)
    (s : FossilHeap T nkp) : Except QueueError (FossilHeap T nkp) :=
  fossilLoop cfg n gvt (List.finRange nkp) s

end Collect

end FossilHeap

end Ross

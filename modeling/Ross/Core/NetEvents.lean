import Ross.Core.Serial
import Ross.Core.System

/-!
# The events counted by a KP

`s_nevent_processed` and `s_e_rbs` of the KPs.  A batch counts an event when its handler has
returned, whether or not its LP is suspended, and `tw_event_rollback` counts at its end; both
counters are kept beside the run.
-/

namespace Ross

variable {T S M R : Type} [TwStime T]

/-- `s_nevent_processed` and `s_e_rbs` of each KP of a PE. -/
structure EventCounts where
  sNeventProcessed : Nat → Nat
  sERbs : Nat → Nat

namespace EventCounts

/-- `init_kps` clears the counters. -/
def zero : EventCounts := ⟨fun _ => 0, fun _ => 0⟩

/-- `n` is added to `s_nevent_processed`. -/
def process (c : EventCounts) (kp n : Nat) : EventCounts :=
  { c with sNeventProcessed := Function.update c.sNeventProcessed kp (c.sNeventProcessed kp + n) }

/-- The end of `tw_event_rollback`. -/
def rollBack (c : EventCounts) (kp : Nat) : EventCounts :=
  { c with sERbs := Function.update c.sERbs kp (c.sERbs kp + 1) }

/-- `s_net_events` of `tw_get_stats`; `nkp` is `g_tw_nkp`. -/
def sNetEvents (c : EventCounts) (nkp : Nat) : Int :=
  ((List.range nkp).map c.sNeventProcessed).sum - ((List.range nkp).map c.sERbs).sum

end EventCounts

/-! ## The schedulers with batches -/

/-- The counters after a step of the PE in the state `s`. -/
def Pe.countEvents (m : SimModel T S M R) (s : Pe T S M R) (c : EventCounts) : EventCounts :=
  match s.net, s.rollback, s.phase, s.curEvent with
  | .off, some r, _, _ => if r.children = [] then c.rollBack (m.kpOf r.event.destLp) else c
  | .off, none, .handler _ _ _ [], some cev => c.process (m.kpOf cev.destLp) 1
  | _, _, _, _ => c

/-- The counters of all PEs after a step of the system. -/
def System.countEvents (m : SimModel T S M R) (s : System T S M R) (l : SystemInput T M)
    (_ : System T S M R) (c : Nat → EventCounts) : Nat → EventCounts :=
  match l with
  | .pe i _ => Function.update c i ((s i).countEvents m (c i))
  | .deliver i _ => Function.update c i ((s i).countEvents m (c i))
  | .reduce _ => c

/-- `s_net_events` as `tw_net_statistics` adds it up over the PEs. -/
def System.sNetEvents (m : SimModel T S M R) (c : Nat → EventCounts) : Int :=
  ((List.range m.npe).map fun i => (c i).sNetEvents m.nkp).sum

/-! ## The schedulers of one PE -/

/-- The counters after a turn of a sequential loop, which counts the event it took off the
priority queue with `count`. -/
def Pe.countTurn (m : SimModel T S M R) (count : EventCounts → Nat → EventCounts)
    (s : Pe T S M R) (arm : Option (GvtHookTrigger T)) (c : EventCounts) : EventCounts :=
  match s.nextEvent m arm with
  | .ok (some cev, _) => count c (m.kpOf cev.destLp)
  | _ => c

/-- What `tw_scheduler_sequential` counts for an event. -/
def EventCounts.sequential (c : EventCounts) (kp : Nat) : EventCounts := c.process kp 1

/-- What `tw_scheduler_sequential_rollback_check` counts for an event: its rollback, then both
of its executions. -/
def EventCounts.rollbackCheck (c : EventCounts) (kp : Nat) : EventCounts :=
  (c.rollBack kp).process kp 2

/-- A turn of `tw_scheduler_optimistic_debug`: of its loop, while the flag is set, or of its
rollback to `toSig`. -/
def Pe.debugStep (m : SerialModel T S M R) (toSig : TwEventSig T) (p : Bool × Pe T S M R) :
    Except TwError (Bool × Pe T S M R) :=
  if p.1 then p.2.debugTurn m
  else (Pe.kpRollbackLoop m 0 toSig 1 p.2).map (Prod.mk false)

/-- The counters after such a turn. -/
def Pe.countDebug (m : SimModel T S M R) (toSig : TwEventSig T) (p : Bool × Pe T S M R)
    (c : EventCounts) : EventCounts :=
  if p.1 then
    match p.2.twPqDequeue with
    | some (cev, _) => c.process (m.kpOf cev.destLp) 1
    | none => c
  else
    match p.2.queue (.peventQ 0) with
    | e :: _ =>
        if 0 ≤ twEventSigComparePtr e.sig toSig then c.rollBack (m.kpOf e.destLp) else c
    | [] => c

end Ross

import Mathlib.Logic.Function.Basic

/-!
# The queues of posted messages

`act_q` of `network-mpi.c`, for `posted_sends` and `posted_recvs`: the events with their
requests, and `test_q`, which finishes the events whose requests are completed.  `E` stands for
the events, `Req` for the requests, and `σ` for all that `finish` can change: the processor with
its queues.
-/

namespace Ross

/-- `act_q`.  What `MPI_Testsome` writes into `idx_list` is not read later. -/
structure ActQ (E Req : Type) where
  name : String
  eventList : Nat → Option E
  reqList : Nat → Req
  cur : Nat

/-- What a call of `MPI_Testsome` returns: whether it is a success, the number of completed
requests, their indices, and the requests afterwards. -/
structure Testsome (Req : Type) where
  success : Bool
  ready : Int
  idxList : Nat → Nat
  reqList : Nat → Req

/-- Where `test_q` stops: at its error, at an event that is `NULL`, or in `finish`. -/
inductive TestQStop (ε : Type)
  | testsomeFailed (cur : Nat) (name : String)
  | nullEvent
  | finish (stop : ε)
deriving DecidableEq

namespace ActQ

variable {E Req σ ε : Type}

/-- The end of a turn of `recv_begin` or `send_begin`: `MPI_Irecv` or `MPI_Isend` has written the
request, and the event is posted. -/
def post (q : ActQ E Req) (e : E) (req : Req) : ActQ E Req :=
  { q with
    reqList := Function.update q.reqList q.cur req
    eventList := Function.update q.eventList q.cur (some e)
    cur := q.cur + 1 }

/-! ## `test_q` -/

/-- `event_list[n] = NULL`. -/
def clear (q : ActQ E Req) (n : Nat) : ActQ E Req :=
  { q with eventList := Function.update q.eventList n none }

/-- The loop that finishes the completed events, from `i` on with `turns` turns to go. -/
def finishLoop (finish : E → σ → Except ε σ) (idxList : Nat → Nat) :
    Nat → Nat → ActQ E Req → σ → Except (TestQStop ε) (ActQ E Req × σ)
  | 0, _, q, me => .ok (q, me)
  | turns + 1, i, q, me =>
      let n := idxList i
      match q.eventList n with
      | none => .error .nullEvent
      | some e =>
          match finish e me with
          | .error stop => .error (.finish stop)
          | .ok me => finishLoop finish idxList turns (i + 1) (q.clear n) me

/-- The copies of the event and of the request at `i` to `n`. -/
def moveSlot (q : ActQ E Req) (i n : Nat) : ActQ E Req :=
  { q with
    eventList := Function.update q.eventList n (q.eventList i)
    reqList := Function.update q.reqList n (q.reqList i) }

/-- The loop that collapses the lists, from `i` on with `turns` turns to go. -/
def collapseLoop : Nat → Nat → Nat → ActQ E Req → ActQ E Req
  | 0, _, _, q => q
  | turns + 1, i, n, q =>
      if (q.eventList i).isSome then
        collapseLoop turns (i + 1) (n + 1) (if i ≠ n then q.moveSlot i n else q)
      else collapseLoop turns (i + 1) n q

/-- `test_q`: its result, the queue, and what `finish` has changed. -/
def testQ (finish : E → σ → Except ε σ) (q : ActQ E Req) (done : Testsome Req) (me : σ) :
    Except (TestQStop ε) (Bool × ActQ E Req × σ) :=
  if q.cur = 0 then .ok (false, q, me)
  else if ¬ done.success then .error (.testsomeFailed q.cur q.name)
  else
    let q := { q with reqList := done.reqList }
    if done.ready < 1 then .ok (false, q, me)
    else
      match finishLoop finish done.idxList done.ready.toNat 0 q me with
      | .error stop => .error stop
      | .ok (q, me) =>
          let q := collapseLoop q.cur 0 0 q
          .ok (true, { q with cur := q.cur - done.ready.toNat }, me)

end ActQ

end Ross

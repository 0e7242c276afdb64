import Ross.Core.EventQueue
import Ross.Lib.LinkedTree

/-!
# The splay tree of the priority queue

`queue/splay.c`: the event buffers are the nodes, linked through `next` (`LEFT`),
`prev` (`RIGHT`) and `up`.  The loops have a bound on the number of their turns;
a pointer that the code follows while it is `NULL` stops with an error.
-/

namespace Ross

open LinkedTree

variable {T : Type} [TwStime T]

/-- The `tw_error` stops of the queue, the use of a pointer that is `NULL`, and
the bound on the turns of a loop. -/
inductive PqError
  | identicalEvents
  | deleteFromEmpty
  | nullPointer
  | outOfTurns
deriving DecidableEq

/-- `tw_pq_compare_less_than_rand`, with its error. -/
def pqCompareLessThanRand (n e : TwEvent T) : Except PqError Bool :=
  let c := twEventSigComparePtr n.sig e.sig
  if c < 0 then .ok true
  else if 0 < c then .ok false
  else if n.eventId < e.eventId then .ok true
  else if e.eventId < n.eventId then .ok false
  else if n.sendPe < e.sendPe then .ok true
  else if e.sendPe < n.sendPe then .ok false
  else .error .identicalEvents

/-! ## `splay` -/

section Rotations

variable {α : Type} [DecidableEq α]

/-- `ROTATE_R(n, p, g)` for `d` the left side, and `ROTATE_L`. -/
def rotate (L : Links α) (d : Side) (n p : α) (g : Option α) : Links α :=
  let x := L.child d.flip n
  let L := L.setChild d p x
  let L := L.setUp? x (some p)
  let L := L.setChild d.flip n (some p)
  let L := L.setUp n g
  L.setUp p (some n)

/-- The parent `z` of `g` gets the child `n` instead, and `n` the parent `z`. -/
def replaceTop (L : Links α) (d : Side) (n g : α) : Links α :=
  let z := L.up g
  let L :=
    match z with
    | some a => if L.child d a = some g then L.setChild d a (some n)
        else L.setChild d.flip a (some n)
    | none => L
  L.setUp n z

/-- The branch of `splay` for `n` and `p` children on the same side. -/
def zigZig (L : Links α) (d : Side) (n p g : α) : Links α :=
  let L := replaceTop L d n g
  let x := L.child d.flip n
  let L := (L.setChild d p x).setUp? x (some p)
  let L := (L.setChild d.flip n (some p)).setUp p (some n)
  let x := L.child d.flip p
  let L := (L.setChild d g x).setUp? x (some g)
  (L.setChild d.flip p (some g)).setUp g (some p)

/-- The branch of `splay` for `n` and `p` children on different sides. -/
def zigZag (L : Links α) (d : Side) (n p g : α) : Links α :=
  let L := replaceTop L d n g
  let x := L.child d.flip n
  let L := ((L.setChild d p x).setUp? x (some p)).setChild d.flip n (some p)
  let x := L.child d n
  let L := ((L.setChild d.flip g x).setUp? x (some g)).setChild d n (some g)
  (L.setUp p (some n)).setUp g (some n)

/-- One turn of the loop of `splay` for `n` with the parent `p`.  The branches for
a right child are those for a left child with the sides exchanged. -/
def splayTurn (L : Links α) (n p : α) : Links α :=
  let d := if L.child .left p = some n then Side.left else Side.right
  match L.up p with
  | none => rotate L d n p none
  | some g => if L.child d g = some p then zigZig L d n p g else zigZag L d n p g

/-- `splay`. -/
def splay : Nat → Links α → α → Except PqError (Links α)
  | 0, _, _ => .error .outOfTurns
  | fuel + 1, L, n =>
      match L.up n with
      | none => .ok L
      | some p => splay fuel (splayTurn L n p) n

/-- The loop `for (; child; n = child)` down the side `d`. -/
def farthest (d : Side) : Nat → Links α → α → Except PqError α
  | 0, _, _ => .error .outOfTurns
  | fuel + 1, L, n =>
      match L.child d n with
      | none => .ok n
      | some x => farthest d fuel L x

end Rotations

/-! ## The queue -/

/-- `struct tw_pq` and the pointers of the events; the two counters are
`unsigned int`. -/
structure SplayTree (T : Type) where
  root : Option (TwEvent T)
  least : Option (TwEvent T)
  nitems : Nat
  maxSize : Nat
  links : Links (TwEvent T)

namespace SplayTree

/-- `tw_pq_create`. -/
def create : SplayTree T where
  root := none
  least := none
  nitems := 0
  maxSize := 0
  links := ⟨fun _ _ => none, fun _ => none⟩

/-- The loop of `tw_pq_enqueue` from the node `n` down. -/
def insertBelow (fuel : Nat) (st : SplayTree T) (n e : TwEvent T) :
    Except PqError (SplayTree T) :=
  match fuel with
  | 0 => .error .outOfTurns
  | fuel + 1 =>
      match pqCompareLessThanRand n e with
      | .error err => .error err
      | .ok true =>
          match st.links.child .right n with
          | some x => st.insertBelow fuel x e
          | none =>
              .ok { st with links := (st.links.setChild .right n (some e)).setUp e (some n) }
      | .ok false =>
          match st.links.child .left n with
          | some x => st.insertBelow fuel x e
          | none =>
              .ok { st with
                least := if st.least = some n then some e else st.least
                links := (st.links.setChild .left n (some e)).setUp e (some n) }

/-- `tw_pq_enqueue`. -/
def enqueue (fuel : Nat) (st : SplayTree T) (e : TwEvent T) : Except PqError (SplayTree T) :=
  let nitems := (st.nitems + 1) % 2 ^ 32
  let links := (st.links.setChild .right e none).setChild .left e none
  let st := { st with
    nitems, maxSize := if st.maxSize < nitems then nitems else st.maxSize, links }
  match st.root with
  | some n =>
      match st.insertBelow fuel n e with
      | .error err => .error err
      | .ok st =>
          match splay fuel st.links e with
          | .error err => .error err
          | .ok links => .ok { st with links, root := some e }
  | none => .ok { st with root := some e, least := some e, links := st.links.setUp e none }

/-- The pointers of an event that left the tree. -/
def clear (L : Links (TwEvent T)) (r : TwEvent T) : Links (TwEvent T) :=
  ((L.setChild .left r none).setChild .right r none).setUp r none

/-- `tw_pq_dequeue`. -/
def dequeue (fuel : Nat) (st : SplayTree T) :
    Except PqError (Option (TwEvent T) × SplayTree T) :=
  if st.nitems = 0 then .ok (none, st)
  else
    match st.least with
    | none => .error .nullPointer
    | some r =>
        let st := { st with nitems := st.nitems - 1 }
        match st.links.up r, st.links.child .right r with
        | some p, some tmp =>
            let links := (st.links.setChild .left p (some tmp)).setUp tmp (some p)
            match farthest .left fuel links tmp with
            | .error err => .error err
            | .ok least => .ok (some r, { st with least := some least, links := clear links r })
        | some p, none =>
            .ok (some r, { st with
              least := some p, links := clear (st.links.setChild .left p none) r })
        | none, some tmp =>
            let links := st.links.setUp tmp none
            match farthest .left fuel links tmp with
            | .error err => .error err
            | .ok least => .ok (some r, { st with
                root := some tmp, least := some least, links := clear links r })
        | none, none =>
            .ok (some r, { st with root := none, least := none, links := clear st.links r })

/-- The part of `tw_pq_delete_any` that joins the subtrees of `r` to one tree,
below the parent of `r`. -/
def joinBelow (fuel : Nat) (L : Links (TwEvent T)) (r : TwEvent T) :
    Except PqError (Option (TwEvent T) × Links (TwEvent T)) :=
  match L.child .left r, L.child .right r with
  | some n, some tmp =>
      let L := L.setUp n none
      match farthest .right fuel L n with
      | .error err => .error err
      | .ok n =>
          match splay fuel L n with
          | .error err => .error err
          | .ok L =>
              let L := (L.setChild .right n (some tmp)).setUp tmp (some n)
              .ok (some n, L.setUp n (L.up r))
  | some n, none => .ok (some n, L.setUp n (L.up r))
  | none, some n => .ok (some n, L.setUp n (L.up r))
  | none, none => .ok (none, L)

/-- `tw_pq_delete_any`. -/
def deleteAny (fuel : Nat) (st : SplayTree T) (r : TwEvent T) : Except PqError (SplayTree T) :=
  if st.least = some r then
    match st.dequeue fuel with
    | .error err => .error err
    | .ok (_, st) => .ok st
  else if st.nitems = 0 then .error .deleteFromEmpty
  else
    let st := { st with nitems := st.nitems - 1 }
    match joinBelow fuel st.links r with
    | .error err => .error err
    | .ok (n, L) =>
        match L.up r with
        | none => .ok { st with root := n, links := clear L r }
        | some p =>
            let d := if L.child .left p = some r then Side.left else Side.right
            let L := L.setChild d p n
            match n with
            | none => .ok { st with links := clear L r }
            | some _ =>
                match splay fuel L p with
                | .error err => .error err
                | .ok L => .ok { st with root := some p, links := clear L r }

/-- `tw_pq_minimum_sig_ptr`. -/
def minimumSig (st : SplayTree T) : TwEventSig T :=
  match st.least with
  | some e => e.sig
  | none => maxSig

/-- `tw_pq_get_size`. -/
def getSize (st : SplayTree T) : Nat := st.nitems

/-- A call of the queue by a scheduler. -/
inductive PqCall (T : Type) [TwStime T]
  | enqueue (e : TwEvent T)
  | dequeue
  | deleteAny (r : TwEvent T)

/-- The event that a call returns, if it returns one, and the queue after it. -/
def call (fuel : Nat) (st : SplayTree T) :
    PqCall T → Except PqError (Option (TwEvent T) × SplayTree T)
  | .enqueue e =>
      match st.enqueue fuel e with
      | .ok st => .ok (none, st)
      | .error err => .error err
  | .dequeue => st.dequeue fuel
  | .deleteAny r =>
      match st.deleteAny fuel r with
      | .ok st => .ok (none, st)
      | .error err => .error err

end SplayTree

end Ross

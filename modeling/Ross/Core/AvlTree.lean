import Ross.Core.State
import Ross.Lib.LinkedTree

/-!
# The AVL trees of the remote-event index

`avl_tree.c`, and the part of `hash-quadratic.c` built with `AVL_TREE`.  A tree is
its nodes; a node has the address of its `struct avlNode`, so that the list of
free nodes is a list of addresses.  A child that the code follows while it is
`AVL_EMPTY` stops with an error.
-/

namespace Ross

open LinkedTree

/-- The `tw_error` and `assert` stops, and the use of a pointer that is `NULL`. -/
inductive AvlError
  | outOfMemory
  | nonExistentEvent
  | assertFailed
  | nullPointer
deriving DecidableEq

/-- `AvlTree`: `AVL_EMPTY`, or a node with `child[0]` and `child[1]`. -/
inductive AvlTree (E : Type)
  | empty
  | node (addr : Nat) (key : E) (height : Nat) (child0 child1 : AvlTree E)
deriving DecidableEq

namespace AvlTree

variable {E : Type}

/-- `child[d]`, with `left` for 0. -/
def child (d : Side) : AvlTree E → AvlTree E
  | .empty => .empty
  | .node _ _ _ l r =>
      match d with
      | .left => l
      | .right => r

/-- The assignment `t->child[d] = c`. -/
def setChild (t : AvlTree E) (d : Side) (c : AvlTree E) : AvlTree E :=
  match t with
  | .empty => .empty
  | .node a k h l r =>
      match d with
      | .left => .node a k h c r
      | .right => .node a k h l c

/-- `avlGetHeight`. -/
def avlGetHeight : AvlTree E → Nat
  | .empty => 0
  | .node _ _ h _ _ => h

/-- `avlFixHeight`. -/
def avlFixHeight : AvlTree E → Except AvlError (AvlTree E)
  | .empty => .error .assertFailed
  | .node a k _ l r => .ok (.node a k (1 + max l.avlGetHeight r.avlGetHeight) l r)

/-! ## Rotations -/

/-- `avlRotate`. -/
def avlRotate (d : Side) (root : AvlTree E) : Except AvlError (AvlTree E) :=
  match root.child d with
  | .empty => .error .nullPointer
  | newRoot =>
      match (root.setChild d (newRoot.child d.flip)).avlFixHeight with
      | .ok oldRoot => (newRoot.setChild d.flip oldRoot).avlFixHeight
      | .error e => .error e

/-- `child[d]` is too tall. -/
def tooTall (d : Side) (t : AvlTree E) : Prop :=
  (t.child d.flip).avlGetHeight + 1 < (t.child d).avlGetHeight

instance (d : Side) (t : AvlTree E) : Decidable (t.tooTall d) :=
  inferInstanceAs (Decidable (_ < _))

/-- The single or the double rotation of `avlRebalance`. -/
def rotateTall (d : Side) (t : AvlTree E) : Except AvlError (AvlTree E) :=
  let x := t.child d
  if (x.child d.flip).avlGetHeight < (x.child d).avlGetHeight then t.avlRotate d
  else
    match x.avlRotate d.flip with
    | .ok x => (t.setChild d x).avlRotate d
    | .error e => .error e

/-- `avlRebalance`. -/
def avlRebalance (t : AvlTree E) : Except AvlError (AvlTree E) :=
  match t with
  | .empty => .ok .empty
  | t =>
      if t.tooTall .left then t.rotateTall .left
      else if t.tooTall .right then t.rotateTall .right
      else t.avlFixHeight

end AvlTree

/-! ## Nodes -/

/-- `avl_alloc`: the last node of the list is never given out. -/
def avlAlloc : List Nat → Except AvlError (Nat × List Nat)
  | [] => .error .nullPointer
  | [_] => .error .outOfMemory
  | head :: next :: free => .ok (head, next :: free)

/-- `avl_free`. -/
def avlFree (addr : Nat) (free : List Nat) : List Nat := addr :: free

/-! ## Insertion and deletion -/

variable {T : Type} [TwStime T]

/-- `event_tiebreaker[0]`. -/
def firstTiebreaker (e : TwEvent T) : T := e.sig.eventTiebreaker.headD 0

/-- `child[0]` or `child[1]` by a condition of the code. -/
def sideOf (b : Prop) [Decidable b] : Side := if b then .right else .left

/-- The comparison that `avlSearch`, `avlInsert` and `avlDelete` write out: the
child to go on in, or `none` for a node with the same key. -/
def avlCompare (key node : TwEvent T) : Option Side :=
  if twStimeCmp key.sig.recvTs node.sig.recvTs = 0 then
    if firstTiebreaker key = firstTiebreaker node then
      if key.eventId = node.eventId then
        if key.sendPe = node.sendPe then none
        else some (sideOf (node.sendPe < key.sendPe))
      else some (sideOf (node.eventId < key.eventId))
    else some (sideOf (firstTiebreaker node < firstTiebreaker key))
  else some (sideOf (0 < twStimeCmp key.sig.recvTs node.sig.recvTs))

namespace AvlTree

/-- `avlInsert`, with the list of free nodes; an event with the key of a node goes
to the left of it. -/
def avlInsert (key : TwEvent T) (free : List Nat) :
    AvlTree (TwEvent T) → Except AvlError (List Nat × AvlTree (TwEvent T))
  | .empty =>
      match avlAlloc free with
      | .ok (a, free) => .ok (free, .node a key 1 .empty .empty)
      | .error e => .error e
  | .node a k h l r =>
      match (avlCompare key k).getD .left with
      | .left =>
          match avlInsert key free l with
          | .ok (free, l) => (avlRebalance (.node a k h l r)).map (free, ·)
          | .error e => .error e
      | .right =>
          match avlInsert key free r with
          | .ok (free, r) => (avlRebalance (.node a k h l r)).map (free, ·)
          | .error e => .error e

/-- `avlDeleteMin`. -/
def avlDeleteMin (free : List Nat) :
    AvlTree (TwEvent T) → Except AvlError (TwEvent T × List Nat × AvlTree (TwEvent T))
  | .empty => .error .nullPointer
  | .node a k _ .empty r => r.avlRebalance.map (k, avlFree a free, ·)
  | .node a k h l r =>
      match avlDeleteMin free l with
      | .ok (e, free, l) => (avlRebalance (.node a k h l r)).map (e, free, ·)
      | .error e => .error e

/-- `avlDelete`. -/
def avlDelete (key : TwEvent T) (free : List Nat) :
    AvlTree (TwEvent T) → Except AvlError (TwEvent T × List Nat × AvlTree (TwEvent T))
  | .empty => .error .nonExistentEvent
  | .node a k h l r =>
      match avlCompare key k with
      | none =>
          match r with
          | .empty => l.avlRebalance.map (k, avlFree a free, ·)
          | r =>
              match avlDeleteMin free r with
              | .ok (e, free, r) => (avlRebalance (.node a e h l r)).map (k, free, ·)
              | .error e => .error e
      | some .left =>
          match avlDelete key free l with
          | .ok (target, free, l) => (avlRebalance (.node a k h l r)).map (target, free, ·)
          | .error e => .error e
      | some .right =>
          match avlDelete key free r with
          | .ok (target, free, r) => (avlRebalance (.node a k h l r)).map (target, free, ·)
          | .error e => .error e

end AvlTree

/-! ## The index of a PE -/

/-- The trees of the KPs of a PE and its list of free nodes. -/
structure AvlIndex (T : Type) (nkp : Nat) where
  avlTree : Fin nkp → AvlTree (TwEvent T)
  avlListHead : List Nat

namespace AvlIndex

variable {nkp : Nat}

/-- `tw_hash_create`; `avlSize` is the value of `--avl-size`. -/
def create (avlSize : Nat) : AvlIndex T nkp := ⟨fun _ => .empty, List.range (2 ^ avlSize)⟩

/-- `tw_hash_insert`, into the tree of the KP that `kpOf` gives the destination. -/
def twHashInsert (kpOf : Nat → Fin nkp) (s : AvlIndex T nkp) (e : TwEvent T) :
    Except AvlError (AvlIndex T nkp) :=
  match (s.avlTree (kpOf e.destLp)).avlInsert e s.avlListHead with
  | .ok (free, t) => .ok ⟨Function.update s.avlTree (kpOf e.destLp) t, free⟩
  | .error err => .error err

/-- `tw_hash_remove`. -/
def twHashRemove (kpOf : Nat → Fin nkp) (s : AvlIndex T nkp) (e : TwEvent T) :
    Except AvlError (TwEvent T × AvlIndex T nkp) :=
  match (s.avlTree (kpOf e.destLp)).avlDelete e s.avlListHead with
  | .ok (target, free, t) => .ok (target, ⟨Function.update s.avlTree (kpOf e.destLp) t, free⟩)
  | .error err => .error err

end AvlIndex

/-- The calls that `recv_finish` and `tw_eventq_push_list` make. -/
inductive IndexOp (T : Type)
  | insert (e : TwEvent T)
  | remove (e : TwEvent T)

/-- A call on the index. -/
def AvlIndex.call {nkp : Nat} (kpOf : Nat → Fin nkp) (s : AvlIndex T nkp) :
    IndexOp T → Except AvlError (AvlIndex T nkp)
  | .insert e => s.twHashInsert kpOf e
  | .remove e => (s.twHashRemove kpOf e).map (·.2)

end Ross

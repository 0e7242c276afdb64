import Ross.Core.State
import Ross.Lib.CInt
import Mathlib.Data.Nat.Sqrt

/-!
# The hash tables of the remote-event index

`hash-quadratic.c` built without `AVL_TREE`.  A table is the list of its slots.
The probe loops have a bound on the number of slots they look at, and an index
outside of the table stops with an error.
-/

namespace Ross

open CInt

variable {T : Type}

/-- The `tw_error` stops, an index outside of the table, and the bound on the turns
of a loop. -/
inductive HashError
  | here
  | cannotFindEvent
  | didNotRehash
  | badPeId
  | outOfRange
  | outOfTurns
deriving DecidableEq

/-! ## Primes -/

/-- `is_prime`: the loop tries the odd numbers up to the square root and one more. -/
def isPrime (ptst : Nat) : Bool :=
  if ptst % 2 = 0 then false
  else (List.range' 3 (Nat.sqrt ptst / 2) 2).all fun a => decide (ptst % a ≠ 0)

/-- The loop of `next_prime`. -/
def nextPrimeLoop : Nat → Nat → Except HashError Nat
  | 0, _ => .error .outOfTurns
  | fuel + 1, ptst => if isPrime ptst then .ok ptst else nextPrimeLoop fuel (ptst + 2)

/-- `next_prime`. -/
def nextPrime (ptst : Nat) : Except HashError Nat := nextPrimeLoop (2 * ptst + 1) (ptst * 2 + 1)

/-! ## Probing -/

/-- `hash_t[key]`. -/
def slot (hashT : List (Option (TwEvent T))) (key : Int) :
    Except HashError (Option (TwEvent T)) :=
  if 0 ≤ key then
    match hashT[key.toNat]? with
    | some e => .ok e
    | none => .error .outOfRange
  else .error .outOfRange

/-- The step of the two probe loops in turn `i`. -/
def nextKey (hashSize : Nat) (i : Nat) (key : Int) : Int :=
  let key := int32 (key + (2 * ((i : Int) + 1) - 1))
  if (hashSize : Int) ≤ key then key - hashSize else key

/-- `hash_`. -/
def hash_ (eventId hashSize : Nat) : Int := int32 ((eventId % hashSize : Nat) : Int)

/-- The loop of `find_empty`. -/
def findEmptyLoop (hashT : List (Option (TwEvent T))) (hashSize : Nat) :
    Nat → Nat → Int → Except HashError Nat
  | 0, _, _ => .error .outOfTurns
  | fuel + 1, i, key =>
      match slot hashT key with
      | .error e => .error e
      | .ok none => .ok key.toNat
      | .ok (some _) => findEmptyLoop hashT hashSize fuel (i + 1) (nextKey hashSize i key)

/-- The number of slots the probe loops look at before they are stopped. -/
def maxProbes (hashSize : Nat) : Nat := (hashSize + 1) / 2

/-- `find_empty`. -/
def findEmpty (hashT : List (Option (TwEvent T))) (event : TwEvent T) (hashSize : Nat) :
    Except HashError Nat :=
  let key := hash_ event.eventId hashSize
  if key < 0 then .error .here else findEmptyLoop hashT hashSize (maxProbes hashSize) 0 key

/-- The loop of `find_entry`. -/
def findEntryLoop (hashT : List (Option (TwEvent T))) (event : TwEvent T) (hashSize : Nat) :
    Nat → Nat → Int → Except HashError Nat
  | 0, _, _ => .error .outOfTurns
  | fuel + 1, i, key =>
      match slot hashT key with
      | .error e => .error e
      | .ok entry =>
          if (entry.map (·.eventId)) = some event.eventId then .ok key.toNat
          else
            let key := nextKey hashSize i key
            if (hashSize : Int) < key then .error .cannotFindEvent
            else findEntryLoop hashT event hashSize fuel (i + 1) key

/-- `find_entry`. -/
def findEntry (hashT : List (Option (TwEvent T))) (event : TwEvent T) (hashSize : Nat) :
    Except HashError Nat :=
  findEntryLoop hashT event hashSize (maxProbes hashSize) 0 (hash_ event.eventId hashSize)

/-! ## The table for one sender -/

/-- `incoming[pe]`, `num_stored[pe]` and `hash_sizes[pe]`. -/
structure HashTable (T : Type) where
  incoming : List (Option (TwEvent T))
  numStored : Int
  hashSize : Nat

/-- `allocate_table`. -/
def allocateTable (hashSize : Nat) : List (Option (TwEvent T)) := List.replicate hashSize none

namespace HashTable

/-- `insert`. -/
def insert (hashT : List (Option (TwEvent T))) (event : TwEvent T) (hashSize : Nat) :
    Except HashError (List (Option (TwEvent T))) :=
  match findEmpty hashT event hashSize with
  | .ok key => .ok (hashT.set key (some event))
  | .error e => .error e

/-- The loop of `rehash` over the slots of the old table. -/
def rehashLoop (h : HashTable T) : List (Option (TwEvent T)) → Except HashError (HashTable T)
  | [] => .ok h
  | none :: old => rehashLoop h old
  | some e :: old =>
      match insert h.incoming e h.hashSize with
      | .ok incoming => rehashLoop { h with incoming, numStored := h.numStored + 1 } old
      | .error err => .error err

/-- `rehash`. -/
def rehash (h : HashTable T) : Except HashError (HashTable T) :=
  match nextPrime h.hashSize with
  | .error e => .error e
  | .ok size =>
      match rehashLoop ⟨allocateTable size, 0, size⟩ h.incoming with
      | .error e => .error e
      | .ok h' => if h.numStored ≠ h'.numStored then .error .didNotRehash else .ok h'

/-- `tw_hash_insert` into the table of a sender; `MAX_FRACTION` is one half. -/
def twHashInsert (h : HashTable T) (event : TwEvent T) : Except HashError (HashTable T) :=
  match insert h.incoming event h.hashSize with
  | .error e => .error e
  | .ok incoming =>
      let h := { h with incoming, numStored := h.numStored + 1 }
      if ((h.hashSize / 2 : Nat) : Int) < h.numStored then h.rehash else .ok h

/-- `tw_hash_remove` from the table of a sender. -/
def twHashRemove (h : HashTable T) (event : TwEvent T) :
    Except HashError (Option (TwEvent T) × HashTable T) :=
  match findEntry h.incoming event h.hashSize with
  | .error e => .error e
  | .ok key =>
      .ok ((h.incoming[key]?).join,
        { h with incoming := h.incoming.set key none, numStored := h.numStored - 1 })

end HashTable

/-! ## The tables of a PE -/

/-- `tw_hash`. -/
structure TwHash (T : Type) where
  nnodes : Nat
  table : Nat → HashTable T

namespace TwHash

/-- `tw_hash_create`. -/
def create (nnodes gTwHashSize : Nat) : Except HashError (TwHash T) :=
  let size := if isPrime gTwHashSize then .ok gTwHashSize else nextPrime gTwHashSize
  match size with
  | .ok size => .ok ⟨nnodes, fun _ => ⟨allocateTable size, 0, size⟩⟩
  | .error e => .error e

/-- `tw_hash_insert`. -/
def twHashInsert (h : TwHash T) (event : TwEvent T) (pe : Nat) : Except HashError (TwHash T) :=
  match (h.table pe).twHashInsert event with
  | .ok t => .ok { h with table := Function.update h.table pe t }
  | .error e => .error e

/-- `tw_hash_remove`. -/
def twHashRemove (h : TwHash T) (event : TwEvent T) (pe : Nat) :
    Except HashError (Option (TwEvent T) × TwHash T) :=
  if h.nnodes - 1 < pe then .error .badPeId
  else
    match (h.table pe).twHashRemove event with
    | .ok (e, t) => .ok (e, { h with table := Function.update h.table pe t })
    | .error e => .error e

end TwHash

/-- The calls that `recv_finish` and `tw_eventq_push_list` make. -/
inductive HashOp (T : Type)
  | insert (e : TwEvent T) (pe : Nat)
  | remove (e : TwEvent T) (pe : Nat)

/-- A call on the tables. -/
def TwHash.call (s : TwHash T) : HashOp T → Except HashError (TwHash T)
  | .insert e pe => s.twHashInsert e pe
  | .remove e pe => (s.twHashRemove e pe).map (·.2)

end Ross

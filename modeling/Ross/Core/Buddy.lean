import Mathlib.Algebra.Ring.Nat
import Mathlib.Logic.Function.Basic

/-!
# The buddy allocator

`buddy.c`.  An address is the distance from `buddy_base_address`, and the memory is what
a header at each address reads.  `tw_calloc` rounds the size 1 of an element of the
arena up to 8, so the memory goes on behind the arena, and it is cleared.
-/

namespace Ross

/-- The `assert` and `tw_error` stops, an index outside of the table, an entry that is in
no list, and the bound on the turns of a loop. -/
inductive BuddyError
  | assertion
  | increaseBuddySize
  | arenaSize
  | outOfRange
  | notListed
  | outOfTurns
deriving DecidableEq

/-- `purpose_t`. -/
inductive Purpose
  | free
  | used
deriving DecidableEq

/-- The fields `size` and `use` of a `buddy_list_t`. -/
structure BuddyHeader where
  size : Nat
  use : Purpose
deriving DecidableEq

/-- `buddy_list_bucket_t`, of the valid entries. -/
structure Bucket where
  ptr : List Nat
  count : Int
  order : Nat
deriving DecidableEq

/-- The arena and `g_tw_buddy_master`. -/
structure Buddy where
  mem : Nat → BuddyHeader
  buckets : List Bucket

/-- `sizeof(buddy_list_t)`. -/
def sizeofBuddyList : Nat := 32

/-- `BUDDY_BLOCK_ORDER`. -/
def buddyBlockOrder : Nat := 6

/-- `next_power2`, on 32 bits. -/
def nextPower2 (v : Nat) : Nat :=
  if v < 2 ^ buddyBlockOrder then 2 ^ buddyBlockOrder
  else
    let v := v - 1
    let v := v ||| v >>> 1
    let v := v ||| v >>> 2
    let v := v ||| v >>> 4
    let v := v ||| v >>> 8
    let v := v ||| v >>> 16
    (v + 1) % 4294967296

namespace Buddy

/-- A bucket is written. -/
def setBucket (t : Buddy) (i : Nat) (b : Bucket) : Buddy := { t with buckets := t.buckets.set i b }

/-- A header is written. -/
def setHeader (t : Buddy) (x : Nat) (h : BuddyHeader) : Buddy :=
  { t with mem := Function.update t.mem x h }

/-- `memset(blt + 1, 0, size)`. -/
def clear (t : Buddy) (blt size : Nat) : Buddy :=
  { t with mem := fun x =>
      if blt + sizeofBuddyList ≤ x ∧ x < blt + sizeofBuddyList + size then ⟨0, .free⟩
      else t.mem x }

/-- The loops that look for the bucket of a size. -/
def findBucket (t : Buddy) (size : Nat) : Option Nat :=
  t.buckets.findIdx? fun b => decide (size ≤ 2 ^ b.order)

/-- `LIST_INSERT_HEAD` with the count. -/
def insertHead (t : Buddy) (i blt : Nat) (b : Bucket) : Buddy :=
  t.setBucket i { b with ptr := blt :: b.ptr, count := b.count + 1 }

/-- `LIST_REMOVE` with the count. -/
def listRemove (t : Buddy) (i blt : Nat) (b : Bucket) : Except BuddyError Buddy :=
  if blt ∈ b.ptr then .ok (t.setBucket i { b with ptr := b.ptr.erase blt, count := b.count - 1 })
  else .error .notListed

/-- `buddy_split` of the bucket `i`. -/
def buddySplit (i : Nat) (t : Buddy) : Except BuddyError Buddy :=
  match i, t.buckets[i]? with
  | j + 1, some bucket =>
      if bucket.count = 0 then .error .assertion
      else
        match bucket.ptr with
        | [] => .error .assertion
        | blt :: rest =>
            let t := t.setBucket (j + 1) { bucket with ptr := rest, count := bucket.count - 1 }
            match t.buckets[j]? with
            | none => .error .outOfRange
            | some lower =>
                let newBlt := blt + 2 ^ lower.order
                let header : BuddyHeader := ⟨2 ^ lower.order - sizeofBuddyList, .free⟩
                let t := (t.setHeader blt header).setHeader newBlt header
                if blt = newBlt then .error .assertion
                else .ok (t.setBucket j
                  { lower with ptr := blt :: newBlt :: lower.ptr, count := lower.count + 2 })
  | _, _ => .error .outOfRange

/-- `while (split_count--) buddy_split(blbt--)`, from the bucket `i`. -/
def splitLoop : Nat → Nat → Buddy → Except BuddyError Buddy
  | 0, _, t => .ok t
  | n + 1, i, t =>
      match buddySplit i t with
      | .ok t => splitLoop n (i - 1) t
      | .error e => .error e

/-- The end of `buddy_alloc`: the first block of the bucket `i` is taken. -/
def takeFirst (i : Nat) (t : Buddy) : Except BuddyError (Nat × Buddy) :=
  match t.buckets[i]? with
  | none => .error .outOfRange
  | some b =>
      match b.ptr with
      | [] => .error .increaseBuddySize
      | blt :: rest =>
          let t := t.setHeader blt { t.mem blt with use := .used }
          .ok (blt + sizeofBuddyList, t.setBucket i { b with ptr := rest, count := b.count - 1 })

/-- `buddy_alloc`. -/
def buddyAlloc (size : Nat) (t : Buddy) : Except BuddyError (Nat × Buddy) :=
  let size := nextPower2 ((size + sizeofBuddyList) % 4294967296)
  match t.findBucket size with
  | none => .error .increaseBuddySize
  | some i =>
      match (t.buckets.drop i).findIdx? fun b => decide (b.count ≠ 0) with
      | none => .error .increaseBuddySize
      | some splitCount =>
          match splitLoop splitCount (i + splitCount) t with
          | .ok t => takeFirst i t
          | .error e => .error e

/-- `buddy_try_merge`, with the number of merges so far. -/
def buddyTryMerge : Nat → Nat → Nat → Buddy → Except BuddyError (Nat × Buddy)
  | 0, _, _, _ => .error .outOfTurns
  | n + 1, mergeCount, blt, t =>
      let size := (t.mem blt).size + sizeofBuddyList
      match t.findBucket size with
      | none => .error .outOfRange
      | some i =>
          let buddy := blt ^^^ size
          if (t.mem buddy).use = .free ∧ (t.mem buddy).size = size - sizeofBuddyList then
            match t.buckets[i]? with
            | none => .error .outOfRange
            | some b =>
                let removed := if mergeCount ≠ 0 then t.listRemove i blt b else .ok t
                match removed with
                | .error e => .error e
                | .ok t =>
                    match t.buckets[i]?, t.buckets[i + 1]? with
                    | some b, some up =>
                        if b.count = 0 then .error .assertion
                        else
                          match t.listRemove i buddy b with
                          | .error e => .error e
                          | .ok t =>
                              let smallest := min blt buddy
                              let size := 2 * size - sizeofBuddyList
                              let t := (t.setHeader smallest ⟨size, .free⟩).insertHead (i + 1)
                                smallest up
                              buddyTryMerge n (mergeCount + 1) smallest (t.clear smallest size)
                    | _, _ => .error .outOfRange
          else .ok (mergeCount, t)

/-- The end of `buddy_free`: the block goes into the list of its bucket. -/
def addFree (t : Buddy) (i blt size : Nat) (b : Bucket) : Buddy :=
  ((t.setHeader blt ⟨size - sizeofBuddyList, .free⟩).insertHead i blt b).clear blt
    (size - sizeofBuddyList)

/-- `buddy_free`. -/
def buddyFree (ptr : Nat) (t : Buddy) : Except BuddyError Buddy :=
  let blt := ptr - sizeofBuddyList
  let size := (t.mem blt).size + sizeofBuddyList
  match t.findBucket size with
  | none => .error .outOfRange
  | some i =>
      match t.buckets[i]? with
      | none => .error .outOfRange
      | some b =>
          if (t.mem blt).use ≠ .used then
            if blt ∈ b.ptr then .ok t else .error .assertion
          else if b.count = 0 then .ok (t.addFree i blt size b)
          else
            match buddyTryMerge (t.buckets.length + 1) 0 blt t with
            | .error e => .error e
            | .ok (mergeCount, t) =>
                match t.buckets[i]? with
                | none => .error .outOfRange
                | some b' =>
                    if mergeCount ≠ 0 then
                      if b'.count < b.count then .ok t else .error .assertion
                    else .ok (t.addFree i blt size b')

/-- `create_buddy_table`; for an order from 31 on `1 << power_of_two` is no size of an
arena. -/
def createBuddyTable (powerOfTwo : Nat) : Except BuddyError Buddy :=
  let power := if powerOfTwo < buddyBlockOrder then buddyBlockOrder else powerOfTwo
  let listCount := power - buddyBlockOrder + 1
  if 31 ≤ power then .error .arenaSize
  else
    let t : Buddy := ⟨fun _ => ⟨0, .free⟩,
      (List.range listCount).map fun i => ⟨[], 0, i + buddyBlockOrder⟩⟩
    match t.buckets[listCount - 1]? with
    | none => .error .outOfRange
    | some last => .ok ((t.setHeader 0 ⟨2 ^ power - sizeofBuddyList, .free⟩).setBucket
        (listCount - 1) { last with ptr := 0 :: last.ptr, count := 1 })

/-- The assertions of `dump_buddy_table`. -/
def dumpBuddyTable (t : Buddy) : Bool :=
  t.buckets.all fun b =>
    b.ptr.all (fun blt => decide (nextPower2 (t.mem blt).size = 2 ^ b.order)) &&
      decide ((b.ptr.length : Int) = b.count)

end Buddy

/-! ## What is looked at -/

/-- The fields `use` and `size` of the header at an address, and a bucket. -/
inductive BuddyAccess
  | header (x : Nat)
  | bucket (i : Nat)
deriving DecidableEq

namespace Buddy

/-- A turn of the loop of `buddy_try_merge`: the block that the merge makes, or the end. -/
def mergeTurn (mergeCount blt : Nat) (t : Buddy) : Except BuddyError (Option (Nat × Buddy)) :=
  let size := (t.mem blt).size + sizeofBuddyList
  match t.findBucket size with
  | none => .error .outOfRange
  | some i =>
      let buddy := blt ^^^ size
      if (t.mem buddy).use = .free ∧ (t.mem buddy).size = size - sizeofBuddyList then
        match t.buckets[i]? with
        | none => .error .outOfRange
        | some b =>
            let removed := if mergeCount ≠ 0 then t.listRemove i blt b else .ok t
            match removed with
            | .error e => .error e
            | .ok t =>
                match t.buckets[i]?, t.buckets[i + 1]? with
                | some b, some up =>
                    if b.count = 0 then .error .assertion
                    else
                      match t.listRemove i buddy b with
                      | .error e => .error e
                      | .ok t =>
                          let smallest := min blt buddy
                          let size := 2 * size - sizeofBuddyList
                          let t := (t.setHeader smallest ⟨size, .free⟩).insertHead (i + 1)
                            smallest up
                          .ok (some (smallest, t.clear smallest size))
                | _, _ => .error .outOfRange
      else .ok none

theorem buddyTryMerge_succ (n mergeCount blt : Nat) (t : Buddy) :
    buddyTryMerge (n + 1) mergeCount blt t =
      match mergeTurn mergeCount blt t with
      | .error e => .error e
      | .ok none => .ok (mergeCount, t)
      | .ok (some (blt, t)) => buddyTryMerge n (mergeCount + 1) blt t := by
  rw [buddyTryMerge]
  unfold mergeTurn
  dsimp only
  cases t.findBucket ((t.mem blt).size + sizeofBuddyList) with
  | none => rfl
  | some i =>
      dsimp only
      split
      next =>
        cases t.buckets[i]? with
        | none => rfl
        | some b =>
            dsimp only
            cases (if mergeCount ≠ 0 then t.listRemove i blt b else .ok t) with
            | error e => rfl
            | ok t₁ =>
                dsimp only
                cases t₁.buckets[i]? with
                | none => rfl
                | some b₁ =>
                    cases t₁.buckets[i + 1]? with
                    | none => rfl
                    | some up =>
                        dsimp only
                        split
                        · rfl
                        · cases t₁.listRemove i
                              (blt ^^^ ((t.mem blt).size + sizeofBuddyList)) b₁ <;>
                            rfl
      next => rfl

/-- The buckets that the loops that look for the bucket of a size look at; with no bucket
for it they go on behind the last one. -/
def findAccesses (t : Buddy) (size : Nat) : List BuddyAccess :=
  (List.range ((t.findBucket size).getD t.buckets.length + 1)).map .bucket

/-- The accesses of a turn of `buddy_try_merge`. -/
def turnAccesses (blt : Nat) (t : Buddy) : List BuddyAccess :=
  let size := (t.mem blt).size + sizeofBuddyList
  let buddy := blt ^^^ size
  .header blt :: t.findAccesses size ++ .header buddy ::
    if (t.mem buddy).use = .free ∧ (t.mem buddy).size = size - sizeofBuddyList then
      [.bucket ((t.findBucket size).getD t.buckets.length + 1)]
    else []

/-- The accesses of `buddy_try_merge`. -/
def mergeAccesses : Nat → Nat → Nat → Buddy → List BuddyAccess
  | 0, _, _, _ => []
  | n + 1, mergeCount, blt, t =>
      t.turnAccesses blt ++
        match mergeTurn mergeCount blt t with
        | .ok (some (blt, t)) => mergeAccesses n (mergeCount + 1) blt t
        | _ => []

/-- The accesses of `buddy_free`. -/
def freeAccesses (ptr : Nat) (t : Buddy) : List BuddyAccess :=
  let blt := ptr - sizeofBuddyList
  let size := (t.mem blt).size + sizeofBuddyList
  .header blt :: t.findAccesses size ++
    match (t.findBucket size).bind (t.buckets[·]?) with
    | none => []
    | some b =>
        if (t.mem blt).use ≠ .used ∨ b.count = 0 then []
        else mergeAccesses (t.buckets.length + 1) 0 blt t

end Buddy

/-! ## Runs -/

/-- The allocator with the areas it has given out, each with the size asked for. -/
structure BuddyRun where
  table : Buddy
  live : List (Nat × Nat)

/-- The calls, and a store of a user at an address. -/
inductive BuddyCall
  | alloc (size : Nat)
  | free (ptr : Nat)
  | store (x : Nat) (h : BuddyHeader)

/-- A call on the allocator. -/
def BuddyRun.call (s : BuddyRun) : BuddyCall → Except BuddyError BuddyRun
  | .alloc size =>
      match s.table.buddyAlloc size with
      | .ok (ptr, table) => .ok ⟨table, (ptr, size) :: s.live⟩
      | .error e => .error e
  | .free ptr =>
      match s.table.buddyFree ptr with
      | .ok table => .ok ⟨table, s.live.filter fun a => decide (a.1 ≠ ptr)⟩
      | .error e => .error e
  | .store x h => .ok { s with table := s.table.setHeader x h }

end Ross

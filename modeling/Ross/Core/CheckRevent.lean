import Ross.Lib.ByteBuffer

/-!
# The rollback checker's copies of an LP

`check-revent/crv-state.c`, and what `tw_scheduler_sequential_rollback_check` does with it: the
two buffers are allocated before the checkpointers are looked up, and every event copies its LP
twice and compares it twice.  States are their bytes; `G` is a stream of random numbers.  The
texts printed on an error are left out.
-/

namespace Ross.CheckRevent

open ByteBuffer

abbrev Bytes := List UInt8

/-- `tw_lptype`: its address and `state_sz`. -/
structure TwLptype where
  addr : Nat
  stateSz : Nat
deriving DecidableEq

/-- `crv_checkpointer`, without the callbacks that print.  `save_lp` writes the `sz_storage`
bytes of the checkpoint, `clean_lp` changes the buffer in place. -/
structure CrvCheckpointer where
  lptype : Nat
  szStorage : Nat
  saveLp : Option (Bytes → Bytes → Bytes)
  cleanLp : Option (Bytes → Bytes)
  checkLps : Option (Bytes → Bytes → Bool)
  length_saveLp : ∀ save ∈ saveLp, ∀ into state, into.length = szStorage →
    (save into state).length = szStorage
  length_cleanLp : ∀ clean ∈ cleanLp, ∀ into, (clean into).length = into.length

variable {G : Type}

/-- What the checker reads of a `tw_lp`: `cur_state` has `state_sz` bytes. -/
structure TwLp (G : Type) where
  id : Nat
  type : TwLptype
  curState : Bytes
  rng : List G
  coreRng : List G
  triggeredGvtHook : Nat
  length_curState : curState.length = type.stateSz

/-- `crv_lpstate_checkpoint_internal`; `state` is the allocated buffer. -/
structure CrvLpstateCheckpoint (G : Type) where
  state : Bytes
  rng : G
  coreRng : G
  triggeredGvtHook : Nat

/-- A memory access outside an object, or the first difference found. -/
inductive CrvError
  | indexPastTable
  | writePastState
  | readPastState
  | noStream
  | stateDiffers
  | rngDiffers
  | coreRngDiffers
  | hookDiffers
deriving DecidableEq

/-- The difference makes the checker call `tw_net_abort`. -/
def CrvError.Aborts : CrvError → Prop
  | .stateDiffers | .rngDiffers | .coreRngDiffers | .hookDiffers => True
  | _ => False

/-! ## The table of checkpointers -/

/-- `checkpointer_for_lps`; `none` is `NULL`. -/
abbrev Table := Option (List (Option CrvCheckpointer))

/-- The first one of the list that `crv_add_custom_state_checkpoint` built for the type. -/
def checkpointerFor (registered : List CrvCheckpointer) (type : TwLptype) :
    Option CrvCheckpointer :=
  registered.find? fun k => decide (type.addr = k.lptype)

/-- A turn of a loop that looks for the largest size. -/
def larger (largest size : Nat) : Nat := if largest < size then size else largest

/-- `crv_init_checkpoints` for the types of the first `g_tw_nlp` LPs, with the size that it
returns. -/
def crvInitCheckpoints (registered : List CrvCheckpointer) (types : List TwLptype) : Table × Nat :=
  if registered = [] then (none, 0)
  else
    let found := types.map (checkpointerFor registered)
    (some found, found.foldl (fun largest k => larger largest (k.elim 0 (·.szStorage))) 0)

/-- `get_chkpntr`. -/
def getChkpntr (table : Table) (id : Nat) : Except CrvError (Option CrvCheckpointer) :=
  match table with
  | none => .ok none
  | some ks =>
      match ks[id]? with
      | some k => .ok k
      | none => .error .indexPastTable

/-! ## Copying, comparing and cleaning -/

/-- How many bytes `crv_copy_lpstate` writes into the buffer. -/
def copiedSize (k : Option CrvCheckpointer) (type : TwLptype) : Nat :=
  match k with
  | some k => if k.saveLp.isSome then k.szStorage else type.stateSz
  | none => type.stateSz

/-- The bytes that `crv_copy_lpstate` writes into the buffer `into`. -/
def copied (k : Option CrvCheckpointer) (into state : Bytes) : Bytes :=
  match k with
  | some k =>
      match k.saveLp with
      | some save => save (into.take k.szStorage) state
      | none => state
  | none => state

/-- `crv_copy_lpstate`. -/
def crvCopyLpstate (table : Table) (into : CrvLpstateCheckpoint G) (clp : TwLp G) :
    Except CrvError (CrvLpstateCheckpoint G) :=
  match getChkpntr table clp.id with
  | .error e => .error e
  | .ok k =>
      if copiedSize k clp.type ≤ into.state.length then
        match clp.rng, clp.coreRng with
        | rng :: _, coreRng :: _ =>
            .ok ⟨copyInto into.state (copied k into.state clp.curState), rng, coreRng,
              clp.triggeredGvtHook⟩
        | _, _ => .error .noStream
      else .error .writePastState

/-- The comparison of the states in `crv_check_lpstates`. -/
def stateEqual (k : Option CrvCheckpointer) (before : Bytes) (clp : TwLp G) :
    Except CrvError Bool :=
  match k.bind (·.checkLps) with
  | some check => .ok (check before clp.curState)
  | none =>
      if clp.type.stateSz ≤ before.length then
        .ok (decide (before.take clp.type.stateSz = clp.curState))
      else .error .readPastState

/-- `crv_check_lpstates`. -/
def crvCheckLpstates [DecidableEq G] (table : Table) (clp : TwLp G)
    (before : CrvLpstateCheckpoint G) : Except CrvError Unit :=
  match getChkpntr table clp.id with
  | .error e => .error e
  | .ok k =>
      match stateEqual k before.state clp with
      | .error e => .error e
      | .ok false => .error .stateDiffers
      | .ok true =>
          match clp.rng, clp.coreRng with
          | rng :: _, coreRng :: _ =>
              if before.rng ≠ rng then .error .rngDiffers
              else if before.coreRng ≠ coreRng then .error .coreRngDiffers
              else if before.triggeredGvtHook ≠ clp.triggeredGvtHook then .error .hookDiffers
              else .ok ()
          | _, _ => .error .noStream

/-- `crv_clean_lpstate`. -/
def crvCleanLpstate (table : Table) (state : CrvLpstateCheckpoint G) (clp : TwLp G) :
    Except CrvError (CrvLpstateCheckpoint G) :=
  match getChkpntr table clp.id with
  | .error e => .error e
  | .ok k =>
      match k with
      | some k =>
          match k.cleanLp with
          | some clean => .ok { state with state := clean state.state }
          | none => .ok state
      | none => .ok state

/-! ## `tw_scheduler_sequential_rollback_check` -/

/-- The LPs of the PE, by their types, and the registered checkpointers. -/
structure Setup where
  modelTypes : List TwLptype
  analysisTypes : List TwLptype
  registered : List CrvCheckpointer

/-- `largest_lp_size` when the buffers are allocated: the loop is over the first `g_tw_nlp`
LPs. -/
def Setup.largestLpSize (p : Setup) : Nat :=
  p.modelTypes.foldl (fun largest type => larger largest type.stateSz) 0

/-- The two checkpoints of the scheduler and the table. -/
structure Checker (G : Type) where
  table : Table
  prev : CrvLpstateCheckpoint G
  cur : CrvLpstateCheckpoint G

/-- The scheduler before its loop: the buffers have `largest_lp_size` bytes, whatever is in
them.  The size that `crv_init_checkpoints` returns comes too late for them. -/
structure Setup.Starts (p : Setup) (s : Checker G) : Prop where
  prev : s.prev.state.length = p.largestLpSize
  cur : s.cur.state.length = p.largestLpSize
  table : s.table = (crvInitCheckpoints p.registered p.modelTypes).1

/-- The LP of the event processed, before its handler, after it, after its rollback, and after
the second call of the handler. -/
structure Visit (G : Type) where
  before : TwLp G
  processed : TwLp G
  rolledBack : TwLp G
  again : TwLp G

/-- What a turn of the loop does with the two checkpoints. -/
def checkTurn [DecidableEq G] (s : Checker G) (v : Visit G) : Except CrvError (Checker G) :=
  match crvCopyLpstate s.table s.prev v.before with
  | .error e => .error e
  | .ok prev =>
      match crvCopyLpstate s.table s.cur v.processed with
      | .error e => .error e
      | .ok cur =>
          match crvCheckLpstates s.table v.rolledBack prev with
          | .error e => .error e
          | .ok () =>
              match crvCleanLpstate s.table prev v.rolledBack with
              | .error e => .error e
              | .ok prev =>
                  match crvCheckLpstates s.table v.again cur with
                  | .error e => .error e
                  | .ok () =>
                      match crvCleanLpstate s.table cur v.again with
                      | .error e => .error e
                      | .ok cur => .ok ⟨s.table, prev, cur⟩

/-- The LP is one of the PE: model LPs come first, analysis LPs behind them. -/
def Setup.Has (p : Setup) (clp : TwLp G) : Prop :=
  (p.modelTypes ++ p.analysisTypes)[clp.id]? = some clp.type

/-- The four views of the LP are of one LP of the PE. -/
structure Setup.Visits (p : Setup) (v : Visit G) : Prop where
  has : p.Has v.before
  processed : v.processed.id = v.before.id ∧ v.processed.type = v.before.type
  rolledBack : v.rolledBack.id = v.before.id ∧ v.rolledBack.type = v.before.type
  again : v.again.id = v.before.id ∧ v.again.type = v.before.type

end Ross.CheckRevent

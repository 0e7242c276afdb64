import Ross.Core.CheckRevent
import Ross.Lib.Transition

/-!
# The buffers of the rollback checker and what it finds

The buffers of the two checkpoints are as large as the largest state of a model LP, and the table
of checkpointers has an entry for each model LP; so the accesses stay inside when no custom
checkpoint is larger and no analysis LP needs an entry.  A comparison is exact when what was
stored and what it is compared with have one representation, and when there is no second stream.
-/

namespace Ross.CheckRevent

open ByteBuffer Transition

variable {G : Type} [DecidableEq G]

variable {tbl : Table} {k : Option CrvCheckpointer} {clp clp' : TwLp G}

variable {into before before' : CrvLpstateCheckpoint G} {p : Setup} {s s' : Checker G}

variable {v : Visit G} {e : CrvError}

/-! ## The three functions -/

theorem length_copied {state : Bytes} {buf : Bytes} {type : TwLptype}
    (hs : state.length = type.stateSz) (hfit : copiedSize k type ≤ buf.length) :
    (copied k buf state).length = copiedSize k type := by
  cases k with
  | none => exact hs
  | some k =>
      unfold copiedSize at hfit
      unfold copied copiedSize
      dsimp only at hfit ⊢
      cases hk : k.saveLp with
      | none => exact hs
      | some save =>
          rw [hk] at hfit
          exact k.length_saveLp save hk _ state (List.length_take_of_le hfit)

section

omit [DecidableEq G]

/-- A copy is made when the table and the buffer are large enough and there are streams. -/
theorem crvCopyLpstate_ok (hk : getChkpntr tbl clp.id = .ok k)
    (h : crvCopyLpstate tbl into clp = .ok before) :
    copiedSize k clp.type ≤ into.state.length ∧
      before.state = copyInto into.state (copied k into.state clp.curState) ∧
      clp.rng.head? = some before.rng ∧ clp.coreRng.head? = some before.coreRng ∧
      before.triggeredGvtHook = clp.triggeredGvtHook := by
  unfold crvCopyLpstate at h
  rw [hk] at h
  dsimp only at h
  split at h
  next hfit =>
    split at h
    next rng rest coreRng rest' hr hc =>
      cases h
      refine ⟨hfit, rfl, ?_, ?_, rfl⟩
      · rw [hr]
        rfl
      · rw [hc]
        rfl
    · cases h
  · cases h

theorem crvCopyLpstate_error (hk : getChkpntr tbl clp.id = .ok k)
    (hfit : copiedSize k clp.type ≤ into.state.length)
    (h : crvCopyLpstate tbl into clp = .error e) : e = .noStream := by
  unfold crvCopyLpstate at h
  rw [hk] at h
  dsimp only at h
  rw [if_pos hfit] at h
  split at h <;> cases h
  rfl

theorem crvCleanLpstate_ok (before : CrvLpstateCheckpoint G)
    (hk : getChkpntr tbl clp.id = .ok k) :
    ∃ state', crvCleanLpstate tbl before clp = .ok state' ∧
      state'.state.length = before.state.length := by
  unfold crvCleanLpstate
  rw [hk]
  cases k with
  | none => exact ⟨before, rfl, rfl⟩
  | some k =>
      dsimp only
      cases hc : k.cleanLp with
      | none => exact ⟨before, rfl, rfl⟩
      | some clean => exact ⟨_, rfl, k.length_cleanLp clean hc _⟩

end

theorem crvCheckLpstates_error (hk : getChkpntr tbl clp.id = .ok k)
    (h : crvCheckLpstates tbl clp before = .error e) :
    e ≠ .writePastState ∧ e ≠ .indexPastTable := by
  unfold crvCheckLpstates at h
  rw [hk] at h
  dsimp only at h
  split at h
  next he =>
    cases h
    unfold stateEqual at he
    split at he
    · cases he
    · split at he <;> cases he
      exact ⟨by decide, by decide⟩
  · cases h
    exact ⟨by decide, by decide⟩
  · split at h
    · split at h
      · cases h
        exact ⟨by decide, by decide⟩
      · split at h
        · cases h
          exact ⟨by decide, by decide⟩
        · split at h <;> cases h
          exact ⟨by decide, by decide⟩
    · cases h
      exact ⟨by decide, by decide⟩

/-! ## The sizes -/

theorem le_larger (a b : Nat) : a ≤ larger a b ∧ b ≤ larger a b := by
  unfold larger
  split <;> omega

/-- The loop finds a size that no other one exceeds. -/
theorem le_foldl_larger (types : List TwLptype) (n : Nat) :
    n ≤ types.foldl (fun largest type => larger largest type.stateSz) n ∧
      ∀ type ∈ types, type.stateSz ≤
        types.foldl (fun largest type => larger largest type.stateSz) n := by
  induction types generalizing n with
  | nil => exact ⟨Nat.le_refl _, fun _ h => absurd h List.not_mem_nil⟩
  | cons a types ih =>
      obtain ⟨hn, hall⟩ := ih (larger n a.stateSz)
      obtain ⟨hl, hr⟩ := le_larger n a.stateSz
      refine ⟨Nat.le_trans hl hn, fun type h => ?_⟩
      rcases List.mem_cons.mp h with rfl | h
      · exact Nat.le_trans hr hn
      · exact hall type h

theorem Setup.stateSz_le {type : TwLptype} (h : type ∈ p.modelTypes) :
    type.stateSz ≤ p.largestLpSize :=
  (le_foldl_larger p.modelTypes 0).2 type h

/-- No custom checkpoint of a model LP is larger than the largest state of a model LP, and if
there are analysis LPs, none has a larger state and no checkpointer is registered. -/
def Setup.Fits (p : Setup) : Prop :=
  (∀ type ∈ p.modelTypes, ∀ k, checkpointerFor p.registered type = some k → k.saveLp.isSome →
    k.szStorage ≤ p.largestLpSize) ∧
  ∀ type ∈ p.analysisTypes, p.registered = [] ∧ type.stateSz ≤ p.largestLpSize

/-- The table of the scheduler. -/
def Setup.table (p : Setup) : Table := (crvInitCheckpoints p.registered p.modelTypes).1

theorem Setup.table_none (h : p.registered = []) : p.table = none := by
  rw [table, crvInitCheckpoints, if_pos h]

theorem Setup.table_some (h : p.registered ≠ []) :
    p.table = some (p.modelTypes.map (checkpointerFor p.registered)) := by
  rw [table, crvInitCheckpoints, if_neg h]

/-- The checkpointer of a model LP. -/
theorem Setup.getChkpntr_model {id : Nat} {type : TwLptype} (h : p.modelTypes[id]? = some type) :
    getChkpntr p.table id = .ok (checkpointerFor p.registered type) := by
  by_cases hr : p.registered = []
  · rw [Setup.table_none hr, hr]
    rfl
  · rw [Setup.table_some hr, getChkpntr, List.getElem?_map, h]
    rfl

section

omit [DecidableEq G]

theorem Setup.Has.cases (h : p.Has clp) :
    p.modelTypes[clp.id]? = some clp.type ∨
      p.modelTypes.length ≤ clp.id ∧ clp.type ∈ p.analysisTypes := by
  rcases Nat.lt_or_ge clp.id p.modelTypes.length with hlt | hge
  · exact .inl ((List.getElem?_append_left hlt).symm.trans h)
  · refine .inr ⟨hge, ?_⟩
    rw [Has, List.getElem?_append_right hge] at h
    exact List.mem_of_getElem? h

/-- Under the condition every LP of the PE has its entry, and its copy fits. -/
theorem Setup.Fits.copied (hp : p.Fits) (h : p.Has clp) : ∃ k,
    getChkpntr p.table clp.id = .ok k ∧ copiedSize k clp.type ≤ p.largestLpSize := by
  rcases h.cases with hm | ⟨-, ha⟩
  · have hmem : clp.type ∈ p.modelTypes := List.mem_of_getElem? hm
    refine ⟨_, Setup.getChkpntr_model hm, ?_⟩
    unfold copiedSize
    split
    next k hk =>
      split
      next hs => exact hp.1 _ hmem k hk hs
      next => exact Setup.stateSz_le hmem
    next => exact Setup.stateSz_le hmem
  · obtain ⟨hr, hsz⟩ := hp.2 _ ha
    rw [Setup.table_none hr]
    exact ⟨none, rfl, hsz⟩

end

/-! ## A run of the scheduler -/

/-- The table and the sizes of the buffers stay. -/
structure Sized (p : Setup) (s : Checker G) : Prop where
  prev : s.prev.state.length = p.largestLpSize
  cur : s.cur.state.length = p.largestLpSize
  table : s.table = p.table

omit [DecidableEq G] in
/-- A copy keeps the size of the buffer. -/
theorem crvCopyLpstate_length (hk : getChkpntr tbl clp.id = .ok k)
    (h : crvCopyLpstate tbl into clp = .ok before) :
    before.state.length = into.state.length := by
  obtain ⟨hfit, hstate, -⟩ := crvCopyLpstate_ok hk h
  have hlen := length_copied (k := k) clp.length_curState hfit
  rw [hstate, length_copyInto (Nat.le_trans (Nat.le_of_eq hlen) hfit)]

/-- What a turn does when every LP of the PE has its entry and its copy fits. -/
theorem checkTurn_sized (hp : p.Fits) (hs : Sized p s) (hv : p.Visits v) :
    (∀ e, checkTurn s v = .error e → e ≠ .writePastState ∧ e ≠ .indexPastTable) ∧
      ∀ s', checkTurn s v = .ok s' → Sized p s' := by
  obtain ⟨k, hk, hfit⟩ := hp.copied hv.has
  rw [← hs.table] at hk
  have hk₁ : getChkpntr s.table v.processed.id = .ok k := by rw [hv.processed.1, hk]
  have hk₂ : getChkpntr s.table v.rolledBack.id = .ok k := by rw [hv.rolledBack.1, hk]
  have hk₃ : getChkpntr s.table v.again.id = .ok k := by rw [hv.again.1, hk]
  have hfit₁ : copiedSize k v.processed.type ≤ p.largestLpSize := by rw [hv.processed.2]; exact hfit
  unfold checkTurn
  cases hprev : crvCopyLpstate s.table s.prev v.before with
  | error e =>
      refine ⟨fun e' h => ?_, fun s' h => by cases h⟩
      cases h
      rw [crvCopyLpstate_error hk (hs.prev ▸ hfit) hprev]
      exact ⟨by decide, by decide⟩
  | ok prev =>
    have hlprev := (crvCopyLpstate_length hk hprev).trans hs.prev
    dsimp only
    cases hcur : crvCopyLpstate s.table s.cur v.processed with
    | error e =>
        refine ⟨fun e' h => ?_, fun s' h => by cases h⟩
        cases h
        rw [crvCopyLpstate_error hk₁ (hs.cur ▸ hfit₁) hcur]
        exact ⟨by decide, by decide⟩
    | ok cur =>
      have hlcur := (crvCopyLpstate_length hk₁ hcur).trans hs.cur
      dsimp only
      cases hc : crvCheckLpstates s.table v.rolledBack prev with
      | error e =>
          refine ⟨fun e' h => ?_, fun s' h => by cases h⟩
          cases h
          exact crvCheckLpstates_error hk₂ hc
      | ok u =>
        obtain ⟨prev', hclean, hlen⟩ := crvCleanLpstate_ok prev hk₂
        dsimp only
        rw [hclean]
        dsimp only
        cases hc' : crvCheckLpstates s.table v.again cur with
        | error e =>
            refine ⟨fun e' h => ?_, fun s' h => by cases h⟩
            cases h
            exact crvCheckLpstates_error hk₃ hc'
        | ok u =>
          obtain ⟨cur', hclean', hlen'⟩ := crvCleanLpstate_ok cur hk₃
          dsimp only
          rw [hclean']
          refine ⟨fun e' h => (by cases h), fun s' h => ?_⟩
          cases h
          exact ⟨hlen.trans hlprev, hlen'.trans hlcur, hs.table⟩

/-- The scheduler reaches a state by turns on LPs of the PE. -/
def Setup.Runs (p : Setup) : Checker G → Prop :=
  Reachable p.Starts fun s v s' => p.Visits v ∧ checkTurn s v = .ok s'

theorem Setup.Runs.sized (hp : p.Fits) (h : p.Runs s) : Sized p s := by
  refine h.invariant (fun s hs => ⟨hs.prev, hs.cur, hs.table⟩) fun s v s' hs _ hstep => ?_
  exact (checkTurn_sized hp hs hstep.1).2 s' hstep.2

section Start

variable [Inhabited G]

/-- The scheduler before its loop, with zeros in the buffers. -/
def Setup.startChecker (p : Setup) : Checker G where
  table := p.table
  prev := ⟨List.replicate p.largestLpSize 0, default, default, 0⟩
  cur := ⟨List.replicate p.largestLpSize 0, default, default, 0⟩

omit [DecidableEq G] in
theorem Setup.startChecker_starts (p : Setup) : p.Starts (p.startChecker : Checker G) where
  prev := List.length_replicate
  cur := List.length_replicate
  table := rfl

/-- An LP with zeros in its state, which no event changes. -/
def stillVisit (id : Nat) (type : TwLptype) : Visit G :=
  let clp : TwLp G :=
    ⟨id, type, List.replicate type.stateSz 0, [default], [default], 0, List.length_replicate⟩
  ⟨clp, clp, clp, clp⟩

omit [DecidableEq G] in
theorem stillVisit_visits {id : Nat} {type : TwLptype}
    (h : (p.modelTypes ++ p.analysisTypes)[id]? = some type) :
    p.Visits (stillVisit id type : Visit G) :=
  ⟨h, ⟨rfl, rfl⟩, ⟨rfl, rfl⟩, ⟨rfl, rfl⟩⟩

/-- The first copy of a turn needs the entry of the LP and room for the copy. -/
theorem copied_of_safe {id : Nat} {type : TwLptype}
    (h : checkTurn (p.startChecker : Checker G) (stillVisit id type) ≠ .error .writePastState ∧
      checkTurn (p.startChecker : Checker G) (stillVisit id type) ≠ .error .indexPastTable) :
    ∃ k, getChkpntr p.table id = .ok k ∧ copiedSize k type ≤ p.largestLpSize := by
  cases hk : getChkpntr p.table id with
  | error e =>
      have he : e = .indexPastTable := by
        unfold getChkpntr at hk
        split at hk
        · cases hk
        · split at hk <;> cases hk
          rfl
      have hcopy : crvCopyLpstate p.table (p.startChecker : Checker G).prev
          (stillVisit id type).before = .error e := by
        unfold crvCopyLpstate
        rw [show getChkpntr p.table (stillVisit id type : Visit G).before.id = .error e from hk]
      refine absurd ?_ h.2
      unfold checkTurn
      rw [show (p.startChecker : Checker G).table = p.table from rfl, hcopy, he]
  | ok k =>
      refine ⟨k, rfl, Nat.le_of_not_lt fun hlt => h.1 ?_⟩
      have hlen : (p.startChecker : Checker G).prev.state.length = p.largestLpSize :=
        List.length_replicate
      have hcopy : crvCopyLpstate p.table (p.startChecker : Checker G).prev
          (stillVisit id type).before = .error .writePastState := by
        unfold crvCopyLpstate
        rw [show getChkpntr p.table (stillVisit id type : Visit G).before.id = .ok k from hk]
        dsimp only
        rw [if_neg]
        rw [hlen]
        exact Nat.not_le_of_lt hlt
      unfold checkTurn
      rw [show (p.startChecker : Checker G).table = p.table from rfl, hcopy]

/-- No run writes past the end of a buffer or looks past the end of the table if and only if the
custom checkpoints fit and no analysis LP needs more than is there. -/
theorem Setup.safe_iff_fits (p : Setup) :
    (∀ s : Checker G, p.Runs s → ∀ v, p.Visits v →
      checkTurn s v ≠ .error .writePastState ∧ checkTurn s v ≠ .error .indexPastTable) ↔
    p.Fits := by
  constructor
  · intro h
    have hcopied : ∀ id type, (p.modelTypes ++ p.analysisTypes)[id]? = some type →
        ∃ k, getChkpntr p.table id = .ok k ∧ copiedSize k type ≤ p.largestLpSize :=
      fun id type ht => copied_of_safe (h _ (.start p.startChecker_starts) _ (stillVisit_visits ht))
    refine ⟨fun type ht k hk hs => ?_, fun type ht => ?_⟩
    · obtain ⟨id, hid⟩ := List.mem_iff_getElem?.mp ht
      have hlt : id < p.modelTypes.length := (List.getElem?_eq_some_iff.mp hid).1
      obtain ⟨k', hk', hfit⟩ := hcopied id type ((List.getElem?_append_left hlt).trans hid)
      rw [Setup.getChkpntr_model hid, hk] at hk'
      cases hk'
      rw [copiedSize, if_pos hs] at hfit
      exact hfit
    · obtain ⟨i, hi⟩ := List.mem_iff_getElem?.mp ht
      have hid : (p.modelTypes ++ p.analysisTypes)[p.modelTypes.length + i]? = some type := by
        rw [List.getElem?_append_right (Nat.le_add_right _ _), Nat.add_sub_cancel_left, hi]
      obtain ⟨k, hk, hfit⟩ := hcopied _ type hid
      by_cases hr : p.registered = []
      · rw [Setup.table_none hr] at hk
        cases hk
        exact ⟨hr, hfit⟩
      · -- the table has an entry for each model LP and ends there
        rw [Setup.table_some hr, getChkpntr, List.getElem?_eq_none (by simp)] at hk
        cases hk
  · intro hp s hs v hv
    obtain ⟨herr, -⟩ := checkTurn_sized hp (Setup.Runs.sized hp hs) hv
    exact ⟨fun h => (herr _ h).1 rfl, fun h => (herr _ h).2 rfl⟩

end Start

/-- A checkpointer that saves a number of zeros. -/
def savesZeros (lptype szStorage : Nat) : CrvCheckpointer where
  lptype := lptype
  szStorage := szStorage
  saveLp := some fun _ _ => List.replicate szStorage 0
  cleanLp := none
  checkLps := none
  length_saveLp save h _ _ _ := by
    cases h
    exact List.length_replicate
  length_cleanLp _ h := by cases h

/-- A custom checkpoint of 16 bytes is written into a buffer of 8, and an analysis LP has no
entry in the table. -/
theorem sizes_overrun :
    (∃ (p : Setup) (s : Checker Nat) (v : Visit Nat), p = ⟨[⟨0, 8⟩], [], [savesZeros 0 16]⟩ ∧
      p.Runs s ∧ p.Visits v ∧ checkTurn s v = .error .writePastState) ∧
    ∃ (p : Setup) (s : Checker Nat) (v : Visit Nat),
      p = ⟨[⟨0, 8⟩], [⟨1, 8⟩], [savesZeros 0 8]⟩ ∧
        p.Runs s ∧ p.Visits v ∧ checkTurn s v = .error .indexPastTable :=
  ⟨⟨_, Setup.startChecker _, stillVisit 0 ⟨0, 8⟩, rfl, .start (Setup.startChecker_starts _),
      stillVisit_visits rfl, rfl⟩,
    ⟨_, Setup.startChecker _, stillVisit 1 ⟨1, 8⟩, rfl, .start (Setup.startChecker_starts _),
      stillVisit_visits rfl, rfl⟩⟩

/-! ## What the checker finds -/

/-- The LP is copied, changes, and is compared with the copy. -/
def copyThenCheck (table : Table) (into : CrvLpstateCheckpoint G) (clp clp' : TwLp G) :
    Except CrvError Unit :=
  match crvCopyLpstate table into clp with
  | .error e => .error e
  | .ok before => crvCheckLpstates table clp' before

/-- What the comparison of the states finds for a state that was copied into a buffer. -/
def statesMatch (k : Option CrvCheckpointer) (buf state state' : Bytes) : Bool :=
  match k.bind (·.checkLps) with
  | some check => check (copyInto buf (copied k buf state)) state'
  | none => decide ((copyInto buf (copied k buf state)).take state'.length = state')

/-- The LP is the same object after a change. -/
structure SameLp (clp clp' : TwLp G) : Prop where
  id : clp'.id = clp.id
  type : clp'.type = clp.type
  rng : clp'.rng.length = clp.rng.length
  coreRng : clp'.coreRng.length = clp.coreRng.length

/-- The LP differs from what it was. -/
def Differs (clp clp' : TwLp G) : Prop :=
  clp.curState ≠ clp'.curState ∨ clp.rng ≠ clp'.rng ∨ clp.coreRng ≠ clp'.coreRng ∨
    clp.triggeredGvtHook ≠ clp'.triggeredGvtHook

/-- The buffer has room for the copy and for a state. -/
def Room (k : Option CrvCheckpointer) (type : TwLptype) (into : CrvLpstateCheckpoint G) : Prop :=
  copiedSize k type ≤ into.state.length ∧ type.stateSz ≤ into.state.length

/-- The first difference, when both LPs have streams. -/
theorem copyThenCheck_eq {r r' q q' : G} {rs rs' qs qs' : List G}
    (hk : getChkpntr tbl clp.id = .ok k) (hroom : Room k clp.type into) (hsame : SameLp clp clp')
    (hr : clp.rng = r :: rs) (hr' : clp'.rng = r' :: rs') (hq : clp.coreRng = q :: qs)
    (hq' : clp'.coreRng = q' :: qs') :
    copyThenCheck tbl into clp clp' =
      if statesMatch k into.state clp.curState clp'.curState = false then .error .stateDiffers
      else if r ≠ r' then .error .rngDiffers
      else if q ≠ q' then .error .coreRngDiffers
      else if clp.triggeredGvtHook ≠ clp'.triggeredGvtHook then .error .hookDiffers
      else .ok () := by
  have hlen : (copied k into.state clp.curState).length ≤ into.state.length := by
    rw [length_copied clp.length_curState hroom.1]
    exact hroom.1
  have hstate : stateEqual k (copyInto into.state (copied k into.state clp.curState)) clp' =
      .ok (statesMatch k into.state clp.curState clp'.curState) := by
    unfold stateEqual statesMatch
    cases k.bind (·.checkLps) with
    | some check => rfl
    | none =>
        dsimp only
        rw [length_copyInto hlen, if_pos (hsame.type ▸ hroom.2), clp'.length_curState]
  have hk' : getChkpntr tbl clp'.id = .ok k := by rw [hsame.id, hk]
  unfold copyThenCheck crvCopyLpstate
  rw [hk]
  dsimp only
  rw [if_pos hroom.1, hr, hq]
  dsimp only
  unfold crvCheckLpstates
  rw [hk']
  dsimp only
  rw [hstate, hr', hq']
  cases statesMatch k into.state clp.curState clp'.curState with
  | true => rfl
  | false => rfl

/-- The checker returns when nothing differs and aborts when something does. -/
def Exact (G : Type) [DecidableEq G] (table : Table) (k : Option CrvCheckpointer) (id : Nat)
    (type : TwLptype) (n nc : Nat) : Prop :=
  ∀ (into : CrvLpstateCheckpoint G) (clp clp' : TwLp G), clp.id = id → clp.type = type →
    clp.rng.length = n → clp.coreRng.length = nc → SameLp clp clp' → Room k type into →
    (¬ Differs clp clp' → copyThenCheck table into clp clp' = .ok ()) ∧
      (Differs clp clp' → ∃ e : CrvError, e.Aborts ∧ copyThenCheck table into clp clp' = .error e)

/-- `check_lps` decides whether a state is the one that was copied. -/
def DecidesCopy (k : CrvCheckpointer) (type : TwLptype) : Prop :=
  ∀ check ∈ k.checkLps, ∀ buf state state' : Bytes, copiedSize (some k) type ≤ buf.length →
    type.stateSz ≤ buf.length → state.length = type.stateSz → state'.length = type.stateSz →
    (check (copyInto buf (copied (some k) buf state)) state' = true ↔ state = state')

/-- What a lone `save_lp` writes begins with the state as it is. -/
def SavesState (k : CrvCheckpointer) (type : TwLptype) : Prop :=
  ∀ save ∈ k.saveLp, type.stateSz ≤ k.szStorage ∧ ∀ into state : Bytes,
    into.length = k.szStorage → state.length = type.stateSz →
    (save into state).take type.stateSz = state

/-- The representation that is stored is the one compared with: a lone `save_lp` has to keep the
bytes that `memcmp` reads, a lone `check_lps` has to read the bytes that `memcpy` stores. -/
def OneRepresentation (k : Option CrvCheckpointer) (type : TwLptype) : Prop :=
  ∀ k' ∈ k, (k'.checkLps = none → SavesState k' type) ∧ (k'.saveLp = none → DecidesCopy k' type)

/-- `save_lp` and `check_lps`, when both are given, belong together. -/
def FaithfulPair (k : Option CrvCheckpointer) (type : TwLptype) : Prop :=
  ∀ k' ∈ k, k'.saveLp.isSome → DecidesCopy k' type

theorem statesMatch_iff {type : TwLptype} {buf state state' : Bytes}
    (hf : FaithfulPair k type) (ho : OneRepresentation k type)
    (hroom : copiedSize k type ≤ buf.length) (hsz : type.stateSz ≤ buf.length)
    (hs : state.length = type.stateSz) (hs' : state'.length = type.stateSz) :
    statesMatch k buf state state' = true ↔ state = state' := by
  have hraw : (copyInto buf state).take state'.length = state := by
    rw [hs', ← hs, take_length_copyInto]
  cases k with
  | none =>
      show decide ((copyInto buf state).take state'.length = state') = true ↔ _
      rw [hraw, decide_eq_true_iff]
  | some k =>
      obtain ⟨hsave, hcheck⟩ := ho k rfl
      cases hc : k.checkLps with
      | some check =>
          have hdec : DecidesCopy k type := by
            cases hk : k.saveLp with
            | none => exact hcheck hk
            | some save => exact hf k rfl (by rw [hk]; rfl)
          have hmatch : statesMatch (some k) buf state state' =
              check (copyInto buf (copied (some k) buf state)) state' := by
            unfold statesMatch
            rw [show (some k).bind (·.checkLps) = some check from hc]
          rw [hmatch]
          exact hdec check hc buf state state' hroom hsz hs hs'
      | none =>
          have hmatch : statesMatch (some k) buf state state' =
              decide ((copyInto buf (copied (some k) buf state)).take state'.length = state') := by
            unfold statesMatch
            rw [show (some k).bind (·.checkLps) = none from hc]
          rw [hmatch, decide_eq_true_iff]
          cases hk : k.saveLp with
          | none =>
              have hcopied : copied (some k) buf state = state := by
                unfold copied
                dsimp only
                rw [hk]
              rw [hcopied, hraw]
          | some save =>
              obtain ⟨hle, htake⟩ := hsave hc save hk
              have hcopied : copied (some k) buf state = save (buf.take k.szStorage) state := by
                unfold copied
                dsimp only
                rw [hk]
              have hbuf : (buf.take k.szStorage).length = k.szStorage := by
                unfold copiedSize at hroom
                dsimp only at hroom
                rw [hk] at hroom
                exact List.length_take_of_le hroom
              rw [hcopied, hs', take_copyInto, htake _ state hbuf hs]
              rw [k.length_saveLp save hk _ state hbuf]
              exact hle

/-- With one stream of each kind and one representation, nothing is missed and nothing else is
found. -/
theorem exact_of_oneRepresentation {id : Nat} {type : TwLptype} (hk : getChkpntr tbl id = .ok k)
    (hf : FaithfulPair k type) (ho : OneRepresentation k type) : Exact G tbl k id type 1 1 := by
  intro into clp clp' hid htype hn hnc hsame hroom
  subst hid htype
  obtain ⟨r, hr⟩ := List.length_eq_one_iff.mp hn
  obtain ⟨q, hq⟩ := List.length_eq_one_iff.mp hnc
  obtain ⟨r', hr'⟩ := List.length_eq_one_iff.mp (hsame.rng.trans hn)
  obtain ⟨q', hq'⟩ := List.length_eq_one_iff.mp (hsame.coreRng.trans hnc)
  have hlen' : clp'.curState.length = clp.type.stateSz := by
    rw [clp'.length_curState, hsame.type]
  have hmatch := statesMatch_iff hf ho hroom.1 hroom.2 clp.length_curState hlen'
  rw [copyThenCheck_eq hk hroom hsame hr hr' hq hq']
  unfold Differs
  rw [hr, hr', hq, hq']
  constructor
  · intro h
    obtain ⟨hs, h⟩ := not_or.mp h
    obtain ⟨hr, h⟩ := not_or.mp h
    obtain ⟨hq, hh⟩ := not_or.mp h
    rw [if_neg, if_neg, if_neg, if_neg hh]
    · exact fun hne => hq fun he => hne (List.cons.inj he).1
    · exact fun hne => hr fun he => hne (List.cons.inj he).1
    · rw [hmatch.mpr (not_not.mp hs)]
      exact Bool.noConfusion
  · intro h
    split
    · exact ⟨.stateDiffers, trivial, rfl⟩
    next hs =>
      split
      · exact ⟨.rngDiffers, trivial, rfl⟩
      next hr =>
        split
        · exact ⟨.coreRngDiffers, trivial, rfl⟩
        next hq =>
          split
          · exact ⟨.hookDiffers, trivial, rfl⟩
          next hh =>
            have hs := hmatch.mp ((Bool.not_eq_false _).mp hs)
            rcases h with h | h | h | h
            · exact absurd hs h
            · exact absurd (congrArg (· :: []) (not_not.mp hr)) h
            · exact absurd (congrArg (· :: []) (not_not.mp hq)) h
            · exact absurd h hh

/-- An LP with the given state and streams. -/
def lpWith (id : Nat) (type : TwLptype) (state : Bytes) (hs : state.length = type.stateSz)
    (rng coreRng : List G) : TwLp G :=
  ⟨id, type, state, rng, coreRng, 0, hs⟩

/-- A buffer with the given bytes. -/
def bufferOf (bytes : Bytes) (g : G) : CrvLpstateCheckpoint G := ⟨bytes, g, g, 0⟩

/-- A second stream is not looked at: an exact checker has one of each kind. -/
theorem one_stream_of_exact [Nontrivial G] {id : Nat} {type : TwLptype} {n nc : Nat}
    (hk : getChkpntr tbl id = .ok k) (h : Exact G tbl k id type n nc) : n = 1 ∧ nc = 1 := by
  obtain ⟨a, b, hab⟩ := exists_pair_ne G
  have hz : (List.replicate type.stateSz (0 : UInt8)).length = type.stateSz := List.length_replicate
  obtain ⟨into, hroom⟩ : ∃ into : CrvLpstateCheckpoint G, Room k type into := by
    refine ⟨bufferOf (List.replicate (copiedSize k type + type.stateSz) 0) a, ?_, ?_⟩ <;>
    · show _ ≤ (List.replicate _ _).length
      rw [List.length_replicate]
      omega
  have hpass : ∀ rng coreRng : List G, rng.length = n → coreRng.length = nc →
      copyThenCheck tbl into (lpWith id type _ hz rng coreRng) (lpWith id type _ hz rng coreRng) =
        .ok () := by
    intro rng coreRng hn hnc
    refine (h into (lpWith id type _ hz rng coreRng) _ rfl rfl hn hnc ⟨rfl, rfl, rfl, rfl⟩
      hroom).1 ?_
    rintro (hd | hd | hd | hd) <;> exact hd rfl
  have hnonempty : n ≠ 0 ∧ nc ≠ 0 := by
    have hp := hpass (List.replicate n a) (List.replicate nc a) List.length_replicate
      List.length_replicate
    unfold copyThenCheck crvCopyLpstate at hp
    rw [show getChkpntr tbl (lpWith id type _ hz (List.replicate n a) (List.replicate nc a)).id =
      .ok k from hk] at hp
    dsimp only at hp
    rw [if_pos (show copiedSize k (lpWith id type _ hz (List.replicate n a)
      (List.replicate nc a)).type ≤ _ from hroom.1)] at hp
    constructor
    · rintro rfl
      cases hp
    · rintro rfl
      cases n <;> cases hp
  obtain ⟨n, rfl⟩ := Nat.exists_eq_succ_of_ne_zero hnonempty.1
  obtain ⟨nc, rfl⟩ := Nat.exists_eq_succ_of_ne_zero hnonempty.2
  -- two LPs that agree in their first streams pass, whatever comes behind them
  have hsecond : ∀ rs rs' qs qs' : List G, rs.length = n → rs'.length = n → qs.length = nc →
      qs'.length = nc → rs = rs' ∧ qs = qs' := by
    intro rs rs' qs qs' hrs hrs' hqs hqs'
    have hsame : SameLp (lpWith id type _ hz (a :: rs) (a :: qs))
        (lpWith id type _ hz (a :: rs') (a :: qs')) := by
      refine ⟨rfl, rfl, ?_, ?_⟩
      · show (a :: rs').length = (a :: rs).length
        rw [List.length_cons, List.length_cons, hrs, hrs']
      · show (a :: qs').length = (a :: qs).length
        rw [List.length_cons, List.length_cons, hqs, hqs']
    have hn : (a :: rs).length = n + 1 := by rw [List.length_cons, hrs]
    have hnc : (a :: qs).length = nc + 1 := by rw [List.length_cons, hqs]
    have hp := hpass (a :: rs) (a :: qs) hn hnc
    have heq := copyThenCheck_eq hk hroom hsame rfl rfl rfl rfl
    rw [copyThenCheck_eq hk hroom ⟨rfl, rfl, rfl, rfl⟩ rfl rfl rfl rfl] at hp
    by_contra hne
    obtain ⟨e, -, he⟩ := (h into _ _ rfl rfl hn hnc hsame hroom).2 <| by
      rcases not_and_or.mp hne with hne | hne
      · exact .inr (.inl fun hc => hne (List.cons.inj hc).2)
      · exact .inr (.inr (.inl fun hc => hne (List.cons.inj hc).2))
    rw [heq] at he
    exact absurd (hp.symm.trans he) (fun hc => by cases hc)
  constructor
  · cases n with
    | zero => rfl
    | succ n =>
        obtain ⟨hrs, -⟩ := hsecond (List.replicate (n + 1) a) (List.replicate (n + 1) b)
          (List.replicate nc a) (List.replicate nc a) List.length_replicate List.length_replicate
          List.length_replicate List.length_replicate
        exact absurd (List.cons.inj hrs).1 hab
  · cases nc with
    | zero => rfl
    | succ nc =>
        obtain ⟨-, hqs⟩ := hsecond (List.replicate n a) (List.replicate n a)
          (List.replicate (nc + 1) a) (List.replicate (nc + 1) b) List.length_replicate
          List.length_replicate List.length_replicate List.length_replicate
        exact absurd (List.cons.inj hqs).1 hab

/-- An exact checker finds a state equal to the copy exactly if it is. -/
theorem statesMatch_of_exact [Nonempty G] {id : Nat} {type : TwLptype}
    (hk : getChkpntr tbl id = .ok k) (h : Exact G tbl k id type 1 1) {buf state state' : Bytes}
    (hroom : copiedSize k type ≤ buf.length) (hsz : type.stateSz ≤ buf.length)
    (hs : state.length = type.stateSz) (hs' : state'.length = type.stateSz) :
    statesMatch k buf state state' = true ↔ state = state' := by
  obtain ⟨a⟩ := ‹Nonempty G›
  have hsame : SameLp (lpWith id type state hs [a] [a]) (lpWith id type state' hs' [a] [a]) :=
    ⟨rfl, rfl, rfl, rfl⟩
  have hroom' : Room k type (bufferOf buf a) := ⟨hroom, hsz⟩
  have heq := copyThenCheck_eq hk hroom' hsame rfl rfl rfl rfl
  obtain ⟨hpass, hfind⟩ := h (bufferOf buf a) (lpWith id type state hs [a] [a])
    (lpWith id type state' hs' [a] [a]) rfl rfl rfl rfl hsame ⟨hroom, hsz⟩
  have hm : statesMatch k (bufferOf buf a).state (lpWith id type state hs [a] [a]).curState
      (lpWith id type state' hs' [a] [a]).curState = statesMatch k buf state state' := rfl
  rw [hm] at heq
  constructor
  · intro hmatch
    by_contra hne
    obtain ⟨e, -, he⟩ := hfind (.inl hne)
    rw [heq, if_neg (by rw [hmatch]; exact Bool.noConfusion), if_neg fun hn => hn rfl,
      if_neg fun hn => hn rfl, if_neg fun hn => hn rfl] at he
    cases he
  · intro hst
    have hd : ¬ Differs (lpWith id type state hs [a] [a]) (lpWith id type state' hs' [a] [a]) := by
      rintro (hd | hd | hd | hd)
      · exact hd hst
      · exact hd rfl
      · exact hd rfl
      · exact hd rfl
    have hp := hpass hd
    rw [heq] at hp
    by_contra hmatch
    rw [if_pos ((Bool.not_eq_true _).mp hmatch)] at hp
    cases hp

theorem oneRepresentation_of_exact [Nonempty G] {id : Nat} {type : TwLptype}
    (hk : getChkpntr tbl id = .ok k) (h : Exact G tbl k id type 1 1) :
    OneRepresentation k type := by
  intro k' hk'
  obtain rfl : k = some k' := hk'
  constructor
  · intro hc save hsave
    have hcopied : ∀ buf state,
         copied (some k') buf state = save (buf.take k'.szStorage) state := by
      intro buf state
      unfold copied
      dsimp only
      rw [hsave]
    have hsize : copiedSize (some k') type = k'.szStorage := by
      unfold copiedSize
      dsimp only
      rw [hsave]
      rfl
    have hmatch : ∀ buf state : Bytes, k'.szStorage ≤ buf.length → type.stateSz ≤ buf.length →
        state.length = type.stateSz →
        (copyInto buf (save (buf.take k'.szStorage) state)).take type.stateSz = state := by
      intro buf state hroom hsz hs
      have hself := (statesMatch_of_exact hk h (hsize.symm ▸ hroom) hsz hs hs).mpr rfl
      unfold statesMatch at hself
      rw [show (some k').bind (·.checkLps) = none from hc] at hself
      dsimp only at hself
      rw [hcopied, hs, decide_eq_true_iff] at hself
      exact hself
    have hle : type.stateSz ≤ k'.szStorage := by
      -- the byte of the buffer behind a checkpoint that is too short is compared with the state
      by_contra hlt
      have hlt := Nat.lt_of_not_le hlt
      have hone := hmatch (List.replicate type.stateSz 1) (List.replicate type.stateSz 0)
        (by rw [List.length_replicate]; exact Nat.le_of_lt hlt)
        (by rw [List.length_replicate]) List.length_replicate
      have hlen := k'.length_saveLp save hsave
        ((List.replicate type.stateSz 1).take k'.szStorage) (List.replicate type.stateSz 0)
        (List.length_take_of_le (by rw [List.length_replicate]; exact Nat.le_of_lt hlt))
      have hbyte := congrArg (·[k'.szStorage]?) hone
      rw [List.getElem?_take_of_lt hlt, getElem?_copyInto (Nat.le_of_eq hlen),
        List.getElem?_replicate_of_lt hlt, List.getElem?_replicate_of_lt hlt] at hbyte
      exact absurd (Option.some.inj hbyte) (by decide)
    refine ⟨hle, fun into state hinto hs => ?_⟩
    have hmatch := hmatch into state (Nat.le_of_eq hinto.symm) (hinto ▸ hle) hs
    rw [List.take_of_length_le (Nat.le_of_eq hinto), take_copyInto] at hmatch
    · exact hmatch
    · rw [k'.length_saveLp save hsave into state hinto]
      exact hle
  · intro hsave check hc buf state state' hroom hsz hs hs'
    have hmatch := statesMatch_of_exact hk h hroom hsz hs hs'
    unfold statesMatch at hmatch
    rw [show (some k').bind (·.checkLps) = some check from hc] at hmatch
    exact hmatch

/-- The checker is exact if and only if every LP has one stream of each kind and what is stored
and what it is compared with have one representation. -/
theorem exact_iff [Nontrivial G] {id : Nat} {type : TwLptype} {n nc : Nat}
    (hk : getChkpntr tbl id = .ok k) (hf : FaithfulPair k type) :
    Exact G tbl k id type n nc ↔ n = 1 ∧ nc = 1 ∧ OneRepresentation k type := by
  constructor
  · intro h
    obtain ⟨rfl, rfl⟩ := one_stream_of_exact hk h
    exact ⟨rfl, rfl, oneRepresentation_of_exact hk h⟩
  · rintro ⟨rfl, rfl, ho⟩
    exact exact_of_oneRepresentation hk hf ho

/-- A checkpointer that saves two bytes the other way round and compares them so. -/
def savesReversed : CrvCheckpointer where
  lptype := 0
  szStorage := 2
  saveLp := some fun into state => (state.reverse ++ into).take 2
  cleanLp := none
  checkLps := some fun before state => decide (before.take 2 = state.reverse)
  length_saveLp save h into state hinto := by
    cases h
    rw [List.length_take_of_le]
    rw [List.length_append]
    omega
  length_cleanLp _ h := by cases h

theorem savesReversed_faithful : FaithfulPair (some savesReversed) ⟨0, 2⟩ := by
  intro k' hk' _ check hc buf state state' hroom _ hs _
  cases hk'
  cases hc
  have hcopied : copied (some savesReversed) buf state = state.reverse := by
    show (state.reverse ++ buf.take 2).take 2 = state.reverse
    rw [List.take_append_of_le_length (by rw [List.length_reverse, hs]),
      List.take_of_length_le (by rw [List.length_reverse, hs])]
  rw [decide_eq_true_iff, hcopied, take_copyInto (by rw [List.length_reverse, hs]),
    List.take_of_length_le (by rw [List.length_reverse, hs]), List.reverse_inj]

/-- With a pair that belongs together and one stream of each kind the checker is exact. -/
theorem exact_savesReversed :
    Exact Nat (some [some savesReversed]) (some savesReversed) 0 ⟨0, 2⟩ 1 1 := by
  refine (exact_iff (k := some savesReversed) rfl savesReversed_faithful).mpr
    ⟨rfl, rfl, fun k' hk' => ?_⟩
  cases hk'
  exact ⟨fun h => (by cases h), fun h => (by cases h)⟩

/-- A change of the second stream is not found; a lone `save_lp` of another representation is
found to differ from an LP that has not changed. -/
theorem second_stream_missed :
    (∃ (into : CrvLpstateCheckpoint Nat) (clp clp' : TwLp Nat), SameLp clp clp' ∧
      Room none clp.type into ∧ Differs clp clp' ∧ copyThenCheck none into clp clp' = .ok ()) ∧
    ∃ (into : CrvLpstateCheckpoint Nat) (clp : TwLp Nat),
      Room (some (savesZeros 0 2)) clp.type into ∧
      clp.rng.length = 1 ∧
      copyThenCheck (some [some (savesZeros 0 2)]) into clp clp = .error .stateDiffers := by
  refine ⟨⟨⟨[0, 0], 0, 0, 0⟩, ⟨0, ⟨0, 2⟩, [3, 4], [0, 0], [0], 0, rfl⟩,
    ⟨0, ⟨0, 2⟩, [3, 4], [0, 1], [0], 0, rfl⟩, ⟨rfl, rfl, rfl, rfl⟩, ?_, ?_, rfl⟩,
    ⟨[0, 0], 0, 0, 0⟩, ⟨0, ⟨0, 2⟩, [3, 4], [0], [0], 0, rfl⟩, ?_, rfl, rfl⟩
  · exact ⟨by decide, by decide⟩
  · exact .inr (.inl (by decide))
  · exact ⟨by decide, by decide⟩

end Ross.CheckRevent

import Mathlib.Data.List.Nodup
import Mathlib.Logic.Function.Basic

/-!
# Ledgers of speculative executions

A subject is executed, and each of its executions is later undone or committed; a subject may be
executed again after that.  Executions are numbered as they start.
-/

/-- One execution of a subject, with what is recorded about it. -/
structure Execution (κ α : Type*) where
  number : Nat
  subject : κ
  record : α

/-- The executions that stand, by subject, and those that were undone or committed, oldest
first. -/
structure ExecutionLedger (κ α : Type*) where
  count : Nat
  live : κ → Option (Execution κ α)
  undone : List (Execution κ α)
  committed : List (Execution κ α)

namespace ExecutionLedger

variable {κ α : Type*} [DecidableEq κ]

omit [DecidableEq κ] in
/-- The numbers of the executions that no longer stand. -/
def closed (l : ExecutionLedger κ α) : List Nat :=
  l.committed.map Execution.number ++ l.undone.map Execution.number

def empty : ExecutionLedger κ α := ⟨0, fun _ => none, [], []⟩

/-- A new execution of `k`. -/
def start (l : ExecutionLedger κ α) (k : κ) (a : α) : ExecutionLedger κ α :=
  { l with count := l.count + 1, live := Function.update l.live k (some ⟨l.count, k, a⟩) }

/-- The execution of `k` is undone. -/
def undo (l : ExecutionLedger κ α) (k : κ) : ExecutionLedger κ α :=
  { l with live := Function.update l.live k none, undone := l.undone ++ (l.live k).toList }

/-- The execution of `k` is committed. -/
def commit (l : ExecutionLedger κ α) (k : κ) : ExecutionLedger κ α :=
  { l with live := Function.update l.live k none, committed := l.committed ++ (l.live k).toList }

theorem start_live_self (l : ExecutionLedger κ α) (k : κ) (a : α) :
    (l.start k a).live k = some ⟨l.count, k, a⟩ := Function.update_self ..

theorem start_live_of_ne (l : ExecutionLedger κ α) {k j : κ} (h : j ≠ k) (a : α) :
    (l.start k a).live j = l.live j := Function.update_of_ne h ..

/-- Executions stand under their subjects and have numbers of their own. -/
structure Valid (l : ExecutionLedger κ α) : Prop where
  subject : ∀ {k x}, l.live k = some x → x.subject = k
  bound : ∀ n ∈ l.closed, n < l.count
  nodup : l.closed.Nodup
  fresh : ∀ {k x}, l.live k = some x → x.number < l.count ∧ x.number ∉ l.closed
  apart : ∀ {k j x y}, l.live k = some x → l.live j = some y → x.number = y.number → k = j

namespace Valid

variable {l l' : ExecutionLedger κ α} {k : κ}

section

omit [DecidableEq κ]

theorem empty : Valid (ExecutionLedger.empty : ExecutionLedger κ α) where
  subject h := nomatch h
  bound _ h := nomatch h
  nodup := List.nodup_nil
  fresh h := nomatch h
  apart h := nomatch h

/-- No execution is committed twice. -/
theorem nodup_committed (h : Valid l) : l.committed.Nodup :=
  ((List.nodup_append'.mp h.nodup).1).of_map _

/-- No execution is both committed and undone. -/
theorem not_undone (h : Valid l) {x : Execution κ α} (hx : x ∈ l.committed) : x ∉ l.undone := by
  intro hu
  exact (List.nodup_append'.mp h.nodup).2.2 (List.mem_map_of_mem hx) (List.mem_map_of_mem hu)

end

theorem start (h : Valid l) (k : κ) (a : α) : Valid (l.start k a) where
  subject := by
    intro j x hx
    by_cases hj : j = k
    · rw [hj, start_live_self] at hx
      rw [← Option.some.inj hx, hj]
    · exact h.subject ((l.start_live_of_ne hj a).symm.trans hx)
  bound n hn := Nat.lt_succ_of_lt (h.bound n hn)
  nodup := h.nodup
  fresh := by
    intro j x hx
    by_cases hj : j = k
    · rw [hj, start_live_self] at hx
      rw [← Option.some.inj hx]
      exact ⟨Nat.lt_succ_self _, fun hmem => Nat.lt_irrefl _ (h.bound _ hmem)⟩
    · obtain ⟨hlt, hnot⟩ := h.fresh ((l.start_live_of_ne hj a).symm.trans hx)
      exact ⟨Nat.lt_succ_of_lt hlt, hnot⟩
  apart := by
    have hnew : ∀ {x}, (l.start k a).live k = some x → x.number = l.count := by
      intro x hx
      rw [start_live_self] at hx
      rw [← Option.some.inj hx]
    have hold : ∀ {j x}, j ≠ k → (l.start k a).live j = some x →
        l.live j = some x ∧ x.number ≠ l.count := by
      intro j x hj hx
      rw [start_live_of_ne l hj] at hx
      exact ⟨hx, Nat.ne_of_lt (h.fresh hx).1⟩
    intro i j x y hx hy heq
    by_cases hi : i = k
    · rw [hi] at hx
      by_contra hij
      exact (hold (fun hj => hij (hi.trans hj.symm)) hy).2 (heq ▸ hnew hx)
    · by_cases hj : j = k
      · rw [hj] at hy
        exact absurd (heq.trans (hnew hy)) (hold hi hx).2
      · exact h.apart (hold hi hx).1 (hold hj hy).1 heq

/-- An execution that stood before and is closed now, under whatever heading. -/
theorem close (h : Valid l) (hcount : l'.count = l.count)
    (hlive : l'.live = Function.update l.live k none)
    (hclosed : l'.closed.Perm (l.closed ++ (l.live k).toList.map Execution.number)) :
    Valid l' := by
  have hold : ∀ {j x}, l'.live j = some x → j ≠ k ∧ l.live j = some x := by
    intro j x hx
    rw [hlive] at hx
    by_cases hj : j = k
    · subst hj
      rw [Function.update_self] at hx
      cases hx
    · exact ⟨hj, (Function.update_of_ne hj ..).symm.trans hx⟩
  have hmem : ∀ {n}, n ∈ l'.closed → n ∈ l.closed ∨ ∃ x, l.live k = some x ∧ x.number = n := by
    intro n hn
    rcases List.mem_append.mp (hclosed.mem_iff.mp hn) with hn | hn
    · exact .inl hn
    · obtain ⟨x, hx, hxn⟩ := List.mem_map.mp hn
      exact .inr ⟨x, Option.mem_toList.mp hx, hxn⟩
  refine ⟨fun hx => h.subject (hold hx).2, fun n hn => ?_, hclosed.nodup_iff.mpr ?_,
    fun hx => ?_, fun hx hy => h.apart (hold hx).2 (hold hy).2⟩
  · rw [hcount]
    rcases hmem hn with hn | ⟨x, hx, rfl⟩
    · exact h.bound n hn
    · exact (h.fresh hx).1
  · cases hk : l.live k with
    | none =>
        rw [Option.toList_none, List.map_nil, List.append_nil]
        exact h.nodup
    | some x =>
        rw [Option.toList_some, List.map_cons, List.map_nil]
        exact h.nodup.append (List.nodup_singleton _)
          (List.disjoint_singleton.mpr (h.fresh hk).2)
  · obtain ⟨hj, hx⟩ := hold hx
    obtain ⟨hlt, hnot⟩ := h.fresh hx
    refine ⟨hcount ▸ hlt, fun hn => ?_⟩
    rcases hmem hn with hn | ⟨y, hy, hyn⟩
    · exact hnot hn
    · exact hj (h.apart hx hy hyn.symm)

theorem undo (h : Valid l) (k : κ) : Valid (l.undo k) := by
  refine h.close rfl rfl (List.Perm.of_eq ?_)
  unfold closed ExecutionLedger.undo
  rw [List.map_append, List.append_assoc]

theorem commit (h : Valid l) (k : κ) : Valid (l.commit k) := by
  refine h.close rfl rfl ?_
  unfold closed ExecutionLedger.commit
  dsimp only
  rw [List.map_append, List.append_assoc, List.append_assoc]
  exact List.perm_append_comm.append_left _

end Valid

end ExecutionLedger

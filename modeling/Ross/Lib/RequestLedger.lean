import Mathlib.Data.List.Perm.Basic
import Mathlib.Order.Lattice
import Mathlib.Order.MinMax

/-!
# Ledgers of requests

Requests are made for points of a linear order.  A request waits until it is revoked or until
the clock is at or past its point when the service takes place.  One point, the least of the
waiting ones, can stand for all of them as long as no two of them need to be told apart.
-/

/-- The requests made so far: the ones that wait, the ones revoked, and the ones served, with
what the clock showed. -/
structure RequestLedger (α : Type*) where
  made : List α
  pending : List α
  revoked : List α
  served : List (α × α)

namespace RequestLedger

section Ledger

variable {α : Type*} {l : RequestLedger α}

def empty : RequestLedger α := ⟨[], [], [], []⟩

/-- A request for `x`. -/
def request (l : RequestLedger α) (x : α) : RequestLedger α :=
  { l with made := x :: l.made, pending := x :: l.pending }

/-- Every request made waits, has been revoked or has been served. -/
def Balanced (l : RequestLedger α) : Prop :=
  l.made.Perm (l.pending ++ (l.revoked ++ l.served.map Prod.fst))

/-- Every request served was served at its point. -/
def Exact (l : RequestLedger α) : Prop := ∀ p ∈ l.served, p.1 = p.2

theorem balanced_empty : Balanced (empty : RequestLedger α) := .nil

theorem Balanced.request (h : l.Balanced) (x : α) : (l.request x).Balanced := h.cons x

end Ledger

variable {α : Type*} [LinearOrder α] {l : RequestLedger α} {top x now : α}

/-! ## Revoking -/

/-- A waiting request for `x` is revoked. -/
def revoke (l : RequestLedger α) (x : α) : RequestLedger α :=
  if x ∈ l.pending then { l with pending := l.pending.erase x, revoked := x :: l.revoked }
  else l

/-- `n` requests for `x` are revoked, as far as there are so many. -/
def revokeMany (x : α) : Nat → RequestLedger α → RequestLedger α
  | 0, l => l
  | n + 1, l => revokeMany x n (l.revoke x)

theorem Balanced.revoke (h : l.Balanced) (x : α) : (l.revoke x).Balanced := by
  unfold RequestLedger.revoke
  split
  next hx =>
    have hmove : (l.pending ++ (l.revoked ++ l.served.map Prod.fst)).Perm
        (l.pending.erase x ++ x :: (l.revoked ++ l.served.map Prod.fst)) :=
      ((List.perm_cons_erase hx).append_right _).trans List.perm_middle.symm
    exact h.trans hmove
  · exact h

theorem Balanced.revokeMany (h : l.Balanced) (x : α) (n : Nat) :
    (revokeMany x n l).Balanced := by
  induction n generalizing l with
  | zero => exact h
  | succ n ih => exact ih (h.revoke x)

theorem mem_of_mem_revoke {y : α} (hy : y ∈ (l.revoke x).pending) : y ∈ l.pending := by
  unfold revoke at hy
  split at hy
  · exact List.mem_of_mem_erase hy
  · exact hy

theorem mem_of_mem_revokeMany {n : Nat} {y : α} (hy : y ∈ (revokeMany x n l).pending) :
    y ∈ l.pending := by
  induction n generalizing l with
  | zero => exact hy
  | succ n ih => exact mem_of_mem_revoke (ih hy)

theorem revoke_served (l : RequestLedger α) (x : α) : (l.revoke x).served = l.served := by
  unfold revoke
  split <;> rfl

theorem revokeMany_served (x : α) (n : Nat) : (revokeMany x n l).served = l.served := by
  induction n generalizing l with
  | zero => rfl
  | succ n ih => exact ih.trans (l.revoke_served x)

/-! ## Serving -/

/-- The service takes place when the clock shows `now`. -/
def serve (l : RequestLedger α) (now : α) : RequestLedger α :=
  { l with
    pending := l.pending.filter fun x => decide (now < x)
    served := (l.pending.filter fun x => decide (x ≤ now)).map (·, now) ++ l.served }

theorem mem_serve {y : α} : y ∈ (l.serve now).pending ↔ y ∈ l.pending ∧ now < y := by
  unfold serve
  rw [List.mem_filter, decide_eq_true_iff]

theorem Balanced.serve (h : l.Balanced) (now : α) : (l.serve now).Balanced := by
  have hnot : (fun x => !decide (now < x)) = fun x => decide (x ≤ now) := by
    funext x
    rw [← decide_not]
    exact decide_eq_decide.mpr not_lt
  have hsplit : l.pending.Perm ((l.pending.filter fun x => decide (now < x)) ++
      l.pending.filter fun x => decide (x ≤ now)) := by
    rw [← hnot]
    exact (List.filter_append_perm _ _).symm
  have hserved : (l.serve now).served.map Prod.fst =
      (l.pending.filter fun x => decide (x ≤ now)) ++ l.served.map Prod.fst := by
    unfold RequestLedger.serve
    rw [List.map_append, List.map_map]
    exact congrArg (· ++ _) (List.map_id _)
  unfold Balanced
  rw [hserved]
  refine (h.trans (hsplit.append_right _)).trans ?_
  rw [List.append_assoc]
  refine List.Perm.append_left _ ?_
  rw [← List.append_assoc, ← List.append_assoc]
  exact List.perm_append_comm.append_right _

/-- A service whose clock is not past a waiting request serves at the point. -/
theorem Exact.serve (h : l.Exact) (hle : ∀ x ∈ l.pending, now ≤ x) : (l.serve now).Exact := by
  intro p hp
  rcases List.mem_append.mp hp with hp | hp
  · obtain ⟨x, hx, rfl⟩ := List.mem_map.mp hp
    obtain ⟨hmem, hx⟩ := List.mem_filter.mp hx
    exact le_antisymm (of_decide_eq_true hx) (hle x hmem)
  · exact h p hp

/-! ## The point that stands for the waiting requests -/

/-- The least point of a list, `top` when there is none. -/
def least (top : α) (l : List α) : α := l.foldr min top

theorem least_cons (a : α) (l : List α) : least top (a :: l) = min a (least top l) := rfl

theorem least_le {l : List α} (hx : x ∈ l) : least top l ≤ x := by
  induction l with
  | nil => cases hx
  | cons a l ih =>
      rcases List.mem_cons.mp hx with rfl | hx
      · exact min_le_left _ _
      · exact (min_le_right _ _).trans (ih hx)

/-- `top` stands for points that are all at or over it. -/
theorem top_eq_least_iff {l : List α} : top = least top l ↔ ∀ x ∈ l, top ≤ x := by
  constructor
  · intro h x hx
    rw [h]
    exact least_le hx
  · intro h
    induction l with
    | nil => rfl
    | cons a l ih =>
        have htail := ih fun x hx => h x (List.mem_cons_of_mem a hx)
        rw [least_cons, ← htail, min_eq_right (h a List.mem_cons_self)]

/-- A new point stands for the list when it is not above the least one. -/
theorem eq_least_cons_iff {a : α} {l : List α} : a = least top (a :: l) ↔ a ≤ least top l := by
  rw [least_cons]
  exact left_eq_inf

end RequestLedger

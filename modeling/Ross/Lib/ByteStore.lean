import Mathlib.Algebra.Order.BigOperators.Group.List
import Mathlib.Algebra.Order.Group.Nat
import Mathlib.Algebra.Ring.Nat
import Mathlib.Data.List.GetD
import Mathlib.Data.List.Perm.Basic
import Mathlib.Logic.Function.Basic

/-!
# Stores of bytes

Bytes are written at offsets of several files, by many writers in any order.  What was
written is read back when no other write touches the same place.
-/

namespace ByteStore

variable {ι : Type*} [DecidableEq ι]

/-- The bytes of a file. -/
abbrev File := Nat → UInt8

/-- Bytes to be written into the file `file` from `offset` on. -/
structure Write (ι : Type*) where
  file : ι
  offset : Nat
  bytes : List UInt8

/-- A file after a write at `offset`. -/
def write (f : File) (offset : Nat) (bytes : List UInt8) : File := fun x =>
  if offset ≤ x then bytes.getD (x - offset) (f x) else f x

/-- The `n` bytes from `offset` on. -/
def read (f : File) (offset n : Nat) : List UInt8 := (List.range n).map fun i => f (offset + i)

/-- The files after a write. -/
def Write.apply (w : Write ι) (fs : ι → File) : ι → File :=
  Function.update fs w.file (write (fs w.file) w.offset w.bytes)

/-- The files after some writes. -/
def applyAll (fs : ι → File) (ws : List (Write ι)) : ι → File :=
  ws.foldl (fun fs w => w.apply fs) fs

/-- No place is touched by both writes. -/
def Write.Apart (w w' : Write ι) : Prop :=
  w.file = w'.file → w.offset + w.bytes.length ≤ w'.offset ∨
    w'.offset + w'.bytes.length ≤ w.offset

variable {f : File} {offset n : Nat} {bytes : List UInt8} {w w' : Write ι} {fs : ι → File}
  {ws : List (Write ι)}

@[simp] theorem length_read (f : File) (offset n : Nat) : (read f offset n).length = n := by
  rw [read, List.length_map, List.length_range]

theorem read_append (f : File) (offset m n : Nat) :
    read f offset (m + n) = read f offset m ++ read f (offset + m) n := by
  unfold read
  rw [List.range_add, List.map_append, List.map_map]
  congr 1
  refine List.map_congr_left fun i _ => ?_
  rw [Function.comp_apply, Nat.add_assoc]

/-- The two parts of what is read. -/
theorem read_split {bs bs' : List UInt8}
    (h : read f offset (bs.length + bs'.length) = bs ++ bs') :
    read f offset bs.length = bs ∧ read f (offset + bs.length) bs'.length = bs' := by
  rw [read_append] at h
  exact List.append_inj h (length_read ..)

theorem read_write : read (write f offset bytes) offset bytes.length = bytes := by
  refine List.ext_getElem (length_read ..) fun i hi hi' => ?_
  simp only [read, write, List.getElem_map, List.getElem_range]
  rw [if_pos (Nat.le_add_right _ _), Nat.add_sub_cancel_left, List.getD_eq_getElem _ _ hi']

theorem write_of_lt {x : Nat} (h : x < offset) : write f offset bytes x = f x :=
  if_neg (by omega)

theorem write_of_ge {x : Nat} (h : offset + bytes.length ≤ x) : write f offset bytes x = f x := by
  unfold write
  rw [if_pos (by omega), List.getD_eq_default _ _ (by omega)]

omit [DecidableEq ι] in
theorem Write.Apart.symm (h : w.Apart w') : w'.Apart w := fun heq => (h heq.symm).symm

/-- A write apart from `w` leaves what `w` wrote. -/
theorem read_apply (h : w.Apart w') :
    read (w'.apply fs w.file) w.offset w.bytes.length =
      read (fs w.file) w.offset w.bytes.length := by
  unfold Write.apply
  by_cases hfile : w.file = w'.file
  · rw [hfile, Function.update_self]
    unfold read
    refine List.map_congr_left fun i hi => ?_
    rw [List.mem_range] at hi
    rcases h hfile with hle | hle
    · exact write_of_lt (by omega)
    · exact write_of_ge (by omega)
  · rw [Function.update_of_ne hfile]

theorem read_applyAll (h : ∀ w' ∈ ws, w.Apart w') :
    read (applyAll fs ws w.file) w.offset w.bytes.length =
      read (fs w.file) w.offset w.bytes.length := by
  unfold applyAll
  induction ws generalizing fs with
  | nil => rfl
  | cons w' ws ih =>
      rw [List.foldl_cons, ih fun x hx => h x (List.mem_cons_of_mem _ hx)]
      exact read_apply (h w' List.mem_cons_self)

/-- Writes that are apart are all read back. -/
theorem read_of_mem (h : ws.Pairwise Write.Apart) (hw : w ∈ ws) :
    read (applyAll fs ws w.file) w.offset w.bytes.length = w.bytes := by
  obtain ⟨pre, post, rfl⟩ := List.append_of_mem hw
  obtain ⟨-, hpost, -⟩ := List.pairwise_append.mp h
  have hsplit : applyAll fs (pre ++ w :: post) = applyAll (w.apply (applyAll fs pre)) post := by
    unfold applyAll
    rw [List.foldl_append, List.foldl_cons]
  rw [hsplit, read_applyAll fun w' hw' => List.rel_of_pairwise_cons hpost hw']
  unfold Write.apply
  rw [Function.update_self]
  exact read_write

/-- The order of the writes does not matter for it. -/
theorem read_of_perm {ws' : List (Write ι)} (h : ws.Pairwise Write.Apart) (hperm : ws'.Perm ws)
    (hw : w ∈ ws) : read (applyAll fs ws' w.file) w.offset w.bytes.length = w.bytes :=
  read_of_mem (hperm.symm.pairwise h fun hab => hab.symm) (hperm.mem_iff.mpr hw)

/-! ## Writes one behind the other -/

/-- Each write begins where the one before it ends, the first at `offset`. -/
def Chained : Nat → List (Write ι) → Prop
  | _, [] => True
  | offset, w :: ws => w.offset = offset ∧ Chained (offset + w.bytes.length) ws

/-- The number of bytes of some writes. -/
def totalBytes (ws : List (Write ι)) : Nat := (ws.map fun w => w.bytes.length).sum

namespace Chained

omit [DecidableEq ι]

theorem append {ws' : List (Write ι)} (h : Chained offset ws)
    (h' : Chained (offset + totalBytes ws) ws') : Chained offset (ws ++ ws') := by
  induction ws generalizing offset with
  | nil => exact h'
  | cons w ws ih =>
      refine ⟨h.1, ih h.2 ?_⟩
      unfold totalBytes at h' ⊢
      rw [List.map_cons, List.sum_cons, ← Nat.add_assoc] at h'
      exact h'

theorem offset_le (h : Chained offset ws) (hw : w ∈ ws) : offset ≤ w.offset := by
  induction ws generalizing offset with
  | nil => cases hw
  | cons w' ws ih =>
      rcases List.mem_cons.mp hw with rfl | hw
      · exact h.1.ge
      · exact (Nat.le_add_right _ _).trans (ih h.2 hw)

/-- They are apart. -/
theorem pairwise (h : Chained offset ws) : ws.Pairwise Write.Apart := by
  induction ws generalizing offset with
  | nil => exact .nil
  | cons w ws ih =>
      refine .cons ?_ (ih h.2)
      intro w' hw' _
      have hle := h.2.offset_le hw'
      have hoff := h.1
      omega

/-- They leave no gap. -/
theorem covers (h : Chained offset ws) (x : Nat) :
    (∃ w ∈ ws, w.offset ≤ x ∧ x < w.offset + w.bytes.length) ↔
      offset ≤ x ∧ x < offset + totalBytes ws := by
  induction ws generalizing offset with
  | nil =>
      unfold totalBytes
      simp
  | cons w ws ih =>
      have hoff := h.1
      have hsum : totalBytes (w :: ws) = w.bytes.length + totalBytes ws := rfl
      rw [hsum, List.exists_mem_cons_iff, ih h.2]
      omega

/-- Writers in a row, each of which begins behind those before it. -/
theorem ofFn {n : Nat} {f : Fin n → Write ι} (size : Fin n → Nat)
    (hsize : ∀ i, (f i).bytes.length = size i)
    (hoff : ∀ i, (f i).offset = offset + ((List.ofFn size).take i).sum) :
    Chained offset (List.ofFn f) := by
  induction n generalizing offset with
  | zero => exact trivial
  | succ n ih =>
      rw [List.ofFn_succ]
      refine ⟨hoff 0, ?_⟩
      rw [hsize 0]
      apply ih (fun i => size i.succ) fun i => hsize i.succ
      intro i
      rw [hoff i.succ, List.ofFn_succ, Fin.val_succ, List.take_succ_cons, List.sum_cons,
        Nat.add_assoc]

end Chained

/-! ## Writers one behind the other -/

/-- The places of the writers before `a` and of `a` lie before those of a later writer. -/
theorem sum_before_add_le {α : Type*} [LinearOrder α] {l : List α} (size : α → Nat) {a b : α}
    (ha : a ∈ l) (hab : a < b) :
    ((l.filter fun x => decide (x < a)).map size).sum + size a ≤
      ((l.filter fun x => decide (x < b)).map size).sum := by
  have hmono : ∀ l : List α, ((l.filter fun x => decide (x < a)).map size).sum ≤
      ((l.filter fun x => decide (x < b)).map size).sum := by
    intro l
    refine ((List.monotone_filter_right l fun x hx => ?_).map size).sum_le_sum fun _ _ => ?_
    · exact decide_eq_true (lt_trans (of_decide_eq_true hx) hab)
    · exact Nat.zero_le _
  induction l with
  | nil => cases ha
  | cons x l ih =>
      by_cases hx : x = a
      · rw [List.filter_cons_of_neg (by simp [hx]),
          List.filter_cons_of_pos (by simpa [hx] using hab),
          List.map_cons, List.sum_cons, hx, Nat.add_comm]
        exact Nat.add_le_add_left (hmono l) _
      · have hih := ih (List.mem_of_ne_of_mem (Ne.symm hx) ha)
        by_cases hlt : x < a
        · rw [List.filter_cons_of_pos (by simpa using hlt),
            List.filter_cons_of_pos (by simpa using lt_trans hlt hab), List.map_cons, List.map_cons,
            List.sum_cons, List.sum_cons]
          omega
        · rw [List.filter_cons_of_neg (by simpa using hlt)]
          refine hih.trans ?_
          refine (((List.sublist_cons_self x l).filter _).map size).sum_le_sum fun _ _ => ?_
          exact Nat.zero_le _

/-- The place of a later part begins behind an earlier one. -/
theorem sum_range_add_le (size : Nat → Nat) {i j : Nat} (h : i < j) :
    ((List.range i).map size).sum + size i ≤ ((List.range j).map size).sum := by
  obtain ⟨m, rfl⟩ := Nat.exists_eq_add_of_le (Nat.succ_le_of_lt h)
  rw [List.range_add, List.map_append, List.sum_append, List.range_succ, List.map_append,
    List.sum_append, List.map_singleton, List.sum_singleton]
  exact Nat.le_add_right _ _

end ByteStore

import Mathlib.Data.List.Nodup
import Mathlib.Logic.Function.Basic

/-!
# Pools of linked elements

A pool is a family of lists, one for each place an element can be linked at.
The operations link an element at either end of a list and take it out again;
a pool is exclusive when no element is linked twice.
-/

namespace Pool

variable {κ α : Type*} [DecidableEq κ] [DecidableEq α]

/-- Link `e` at the head of the list `q`. -/
def cons (p : κ → List α) (q : κ) (e : α) : κ → List α := Function.update p q (e :: p q)

/-- Link `e` at the tail of the list `q`. -/
def snoc (p : κ → List α) (q : κ) (e : α) : κ → List α := Function.update p q (p q ++ [e])

/-- Take `e` out of the list `q`. -/
def remove (p : κ → List α) (q : κ) (e : α) : κ → List α := Function.update p q ((p q).erase e)

variable {p : κ → List α} {q j : κ} {e x : α}

/-! ## Membership -/

section

omit [DecidableEq α]

theorem mem_update {l : List α} :
    x ∈ Function.update p q l j ↔ j = q ∧ x ∈ l ∨ j ≠ q ∧ x ∈ p j := by
  by_cases h : j = q
  · subst h
    simp
  · simp [h]

@[simp] theorem mem_cons : x ∈ cons p q e j ↔ j = q ∧ x = e ∨ x ∈ p j := by
  by_cases h : j = q
  · subst h
    simp [cons]
  · simp [cons, h]

@[simp] theorem mem_snoc : x ∈ snoc p q e j ↔ j = q ∧ x = e ∨ x ∈ p j := by
  by_cases h : j = q
  · subst h
    simp [snoc, or_comm]
  · simp [snoc, h]

@[simp] theorem cons_self : cons p q e q = e :: p q := Function.update_self ..

theorem cons_of_ne (h : j ≠ q) : cons p q e j = p j := Function.update_of_ne h ..

@[simp] theorem snoc_self : snoc p q e q = p q ++ [e] := Function.update_self ..

theorem snoc_of_ne (h : j ≠ q) : snoc p q e j = p j := Function.update_of_ne h ..

end

theorem of_mem_remove (h : x ∈ remove p q e j) : x ∈ p j := by
  by_cases hj : j = q
  · subst hj
    simp only [remove, Function.update_self] at h
    exact List.mem_of_mem_erase h
  · simpa [remove, hj] using h

theorem mem_remove_of_ne (hne : x ≠ e) (h : x ∈ p j) : x ∈ remove p q e j := by
  by_cases hj : j = q
  · subst hj
    simpa only [remove, Function.update_self] using (List.mem_erase_of_ne hne).mpr h
  · simpa [remove, hj] using h

@[simp] theorem remove_self : remove p q e q = (p q).erase e := Function.update_self ..

theorem remove_of_ne (h : j ≠ q) : remove p q e j = p j := Function.update_of_ne h ..

/-! ## What holds of every element linked -/

variable {P : κ → α → Prop}

section

omit [DecidableEq α]

theorem forall_cons (h : ∀ j, ∀ x ∈ p j, P j x) (he : P q e) :
    ∀ j, ∀ x ∈ cons p q e j, P j x := by
  intro j x hx
  rcases mem_cons.mp hx with ⟨rfl, rfl⟩ | hx
  · exact he
  · exact h j x hx

theorem forall_snoc (h : ∀ j, ∀ x ∈ p j, P j x) (he : P q e) :
    ∀ j, ∀ x ∈ snoc p q e j, P j x := by
  intro j x hx
  rcases mem_snoc.mp hx with ⟨rfl, rfl⟩ | hx
  · exact he
  · exact h j x hx

theorem forall_update {l : List α} (h : ∀ j, ∀ x ∈ p j, P j x) (hl : ∀ x ∈ l, P q x) :
    ∀ j, ∀ x ∈ Function.update p q l j, P j x := by
  intro j x hx
  rcases mem_update.mp hx with ⟨rfl, hxl⟩ | ⟨-, hxp⟩
  · exact hl x hxl
  · exact h j x hxp

end

theorem forall_remove (h : ∀ j, ∀ x ∈ p j, P j x) : ∀ j, ∀ x ∈ remove p q e j, P j x :=
  fun j x hx => h j x (of_mem_remove hx)

/-! ## Exclusive pools -/

/-- No element is linked twice. -/
structure Exclusive (p : κ → List α) : Prop where
  nodup : ∀ q, (p q).Nodup
  place : ∀ {q j x}, x ∈ p q → x ∈ p j → q = j

/-- `e` is linked nowhere. -/
def Loose (p : κ → List α) (e : α) : Prop := ∀ q, e ∉ p q

namespace Exclusive

theorem mem_remove (h : Exclusive p) : x ∈ remove p q e j ↔ x ∈ p j ∧ ¬ (j = q ∧ x = e) := by
  by_cases hj : j = q
  · subst hj
    simp [remove, (h.nodup j).mem_erase_iff, and_comm]
  · simp [remove, hj]

theorem remove (h : Exclusive p) (q : κ) (e : α) : Exclusive (remove p q e) where
  nodup j := by
    by_cases hj : j = q
    · subst hj
      rw [remove_self]
      exact (h.nodup j).erase e
    · rw [remove_of_ne hj]
      exact h.nodup j
  place hx hx' := h.place (of_mem_remove hx) (of_mem_remove hx')

/-- What is taken out of its list is linked nowhere. -/
theorem loose_remove (h : Exclusive p) (he : e ∈ p q) : Loose (Pool.remove p q e) e := by
  intro j hj
  obtain ⟨hj, hne⟩ := h.mem_remove.mp hj
  exact hne ⟨h.place hj he, rfl⟩

section

omit [DecidableEq α]

theorem cons (h : Exclusive p) (he : Loose p e) (q : κ) : Exclusive (cons p q e) where
  nodup j := by
    by_cases hj : j = q
    · subst hj
      rw [cons_self]
      exact List.nodup_cons.mpr ⟨he j, h.nodup j⟩
    · rw [cons_of_ne hj]
      exact h.nodup j
  place := by
    intro a b x ha hb
    rcases mem_cons.mp ha with ⟨rfl, rfl⟩ | hold
    · rcases mem_cons.mp hb with ⟨rfl, -⟩ | hb
      · rfl
      · exact absurd hb (he b)
    · rcases mem_cons.mp hb with ⟨rfl, rfl⟩ | hb
      · exact absurd hold (he a)
      · exact h.place hold hb

theorem snoc (h : Exclusive p) (he : Loose p e) (q : κ) : Exclusive (snoc p q e) where
  nodup j := by
    by_cases hj : j = q
    · subst hj
      rw [snoc_self]
      exact (h.nodup j).append (List.nodup_singleton e) (by simpa using he j)
    · rw [snoc_of_ne hj]
      exact h.nodup j
  place := by
    intro a b x ha hb
    rcases mem_snoc.mp ha with ⟨rfl, rfl⟩ | hold
    · rcases mem_snoc.mp hb with ⟨rfl, -⟩ | hb
      · rfl
      · exact absurd hb (he b)
    · rcases mem_snoc.mp hb with ⟨rfl, rfl⟩ | hb
      · exact absurd hold (he a)
      · exact h.place hold hb

/-- The end of a list moves to a place where nothing was linked. -/
theorem split (h : Exclusive p) {front back : List α} (hq : p q = front ++ back) (j : κ) :
    Exclusive (Function.update (Function.update p q front) j back) := by
  have hnodup := h.nodup q
  rw [hq] at hnodup
  obtain ⟨hfront, hback, hdis⟩ := List.nodup_append'.mp hnodup
  -- Where an element of the new pool was linked before.
  have hsrc : ∀ {i x}, x ∈ Function.update (Function.update p q front) j back i →
      i = j ∧ x ∈ back ∨ i = q ∧ x ∈ front ∨ i ≠ q ∧ i ≠ j ∧ x ∈ p i := by
    intro i x hx
    rcases mem_update.mp hx with ⟨hi, hx⟩ | ⟨hi, hx⟩
    · exact .inl ⟨hi, hx⟩
    · rcases mem_update.mp hx with ⟨hiq, hx⟩ | ⟨hiq, hx⟩
      · exact .inr (.inl ⟨hiq, hx⟩)
      · exact .inr (.inr ⟨hiq, hi, hx⟩)
  have hmem : ∀ {x}, x ∈ front ∨ x ∈ back → x ∈ p q := by
    intro x hx
    rw [hq]
    exact List.mem_append.mpr hx
  refine ⟨fun i => ?_, ?_⟩
  · by_cases hi : i = j
    · rw [hi, Function.update_self]
      exact hback
    · rw [Function.update_of_ne hi]
      by_cases hiq : i = q
      · rw [hiq, Function.update_self]
        exact hfront
      · rw [Function.update_of_ne hiq]
        exact h.nodup i
  · intro a b x ha hb
    rcases hsrc ha with ⟨ha', hxa⟩ | ⟨ha', hxa⟩ | ⟨haq, -, hxa⟩
    · rcases hsrc hb with ⟨hb', -⟩ | ⟨-, hxb⟩ | ⟨hbq, -, hxb⟩
      · rw [ha', hb']
      · exact absurd hxa (hdis hxb)
      · exact absurd (h.place hxb (hmem (.inr hxa))) hbq
    · rcases hsrc hb with ⟨-, hxb⟩ | ⟨hb', -⟩ | ⟨hbq, -, hxb⟩
      · exact absurd hxb (hdis hxa)
      · rw [ha', hb']
      · exact absurd (h.place hxb (hmem (.inl hxa))) hbq
    · rcases hsrc hb with ⟨-, hxb⟩ | ⟨-, hxb⟩ | ⟨-, -, hxb⟩
      · exact absurd (h.place hxa (hmem (.inr hxb))) haq
      · exact absurd (h.place hxa (hmem (.inl hxb))) haq
      · exact h.place hxa hxb

end

/-- An element moves to the head of another list. -/
theorem move (h : Exclusive p) (he : e ∈ p q) (j : κ) :
    Exclusive (Pool.cons (Pool.remove p q e) j e) :=
  (h.remove q e).cons (h.loose_remove he) j

/-- An element moves to the tail of another list. -/
theorem moveLast (h : Exclusive p) (he : e ∈ p q) (j : κ) :
    Exclusive (Pool.snoc (Pool.remove p q e) j e) :=
  (h.remove q e).snoc (h.loose_remove he) j

end Exclusive

/-! ## Taking the head off a list -/

/-- Dropping the head of a list takes it out. -/
theorem update_tail {l : List α} (h : p q = e :: l) : Function.update p q l = remove p q e := by
  unfold remove
  rw [h, List.erase_cons_head]

/-! ## Part of a pool -/

/-- The lists of a pool that `H` selects. -/
def restrict (H : κ → Bool) (p : κ → List α) (q : κ) : List α := if H q then p q else []

section Restrict

variable {H : κ → Bool}

section

omit [DecidableEq κ] [DecidableEq α]

theorem restrict_of (h : H q = true) : restrict H p q = p q := if_pos h

theorem mem_restrict : x ∈ restrict H p q ↔ H q = true ∧ x ∈ p q := by
  unfold restrict
  by_cases h : H q = true
  · simp [h]
  · simp [h]

end

section

omit [DecidableEq α]

theorem restrict_update (h : H q = true) (l : List α) :
    restrict H (Function.update p q l) = Function.update (restrict H p) q l := by
  funext j
  by_cases hj : j = q
  · rw [hj, Function.update_self, restrict_of h, Function.update_self]
  · rw [Function.update_of_ne hj]
    unfold restrict
    rw [Function.update_of_ne hj]

/-- A list outside of the part changes. -/
theorem restrict_update_of_not (h : H q = false) (l : List α) :
    restrict H (Function.update p q l) = restrict H p := by
  funext j
  unfold restrict
  by_cases hj : j = q
  · rw [hj, h]
    rfl
  · rw [Function.update_of_ne hj]

theorem restrict_cons (h : H q = true) : restrict H (cons p q e) = cons (restrict H p) q e := by
  unfold cons
  rw [restrict_update h, restrict_of h]

theorem restrict_snoc (h : H q = true) : restrict H (snoc p q e) = snoc (restrict H p) q e := by
  unfold snoc
  rw [restrict_update h, restrict_of h]

theorem restrict_cons_of_not (h : H q = false) : restrict H (cons p q e) = restrict H p :=
  restrict_update_of_not h _

theorem restrict_snoc_of_not (h : H q = false) : restrict H (snoc p q e) = restrict H p :=
  restrict_update_of_not h _

end

theorem restrict_remove (h : H q = true) :
    restrict H (remove p q e) = remove (restrict H p) q e := by
  unfold remove
  rw [restrict_update h, restrict_of h]

theorem restrict_remove_of_not (h : H q = false) : restrict H (remove p q e) = restrict H p :=
  restrict_update_of_not h _

end Restrict

end Pool

import Mathlib.Data.Option.Basic

/-!
# Runs back and forth

When one partial step undoes another, a run of the one undoes a run of the other of
the same length.
-/

namespace RoundTrip

variable {σ : Type*}

/-- `n` steps of `f`. -/
def iterate (f : σ → Option σ) : Nat → σ → Option σ
  | 0, s => some s
  | n + 1, s => (f s).bind (iterate f n)

variable {f g : σ → Option σ} {P : σ → Prop}

theorem iterate_succ_of_eq {s s' : σ} (h : f s = some s') (n : Nat) :
    iterate f (n + 1) s = iterate f n s' := by
  rw [iterate, h, Option.bind_some]

/-- The last step apart. -/
theorem iterate_succ' (f : σ → Option σ) (n : Nat) (s : σ) :
    iterate f (n + 1) s = (iterate f n s).bind f := by
  induction n generalizing s with
  | zero => cases hs : f s <;> simp only [iterate, hs, Option.bind_none, Option.bind_some]
  | succ n ih =>
      cases hs : f s with
      | none => simp only [iterate, hs, Option.bind_none]
      | some s' => rw [iterate_succ_of_eq hs, ih s', iterate_succ_of_eq hs]

/-- Two runs in a row. -/
theorem iterate_add (f : σ → Option σ) (n k : Nat) (s : σ) :
    iterate f (n + k) s = (iterate f n s).bind (iterate f k) := by
  induction k with
  | zero =>
      rw [Nat.add_zero]
      cases iterate f n s with
      | none => rfl
      | some s' => rfl
  | succ k ih =>
      rw [← Nat.add_assoc, iterate_succ', ih]
      cases hs : iterate f n s with
      | none => rfl
      | some s' => rw [Option.bind_some, Option.bind_some, iterate_succ']

/-- `f` keeps `P`, and `g` undoes it there. -/
def Undoes (P : σ → Prop) (f g : σ → Option σ) : Prop :=
  ∀ s, P s → ∃ s', f s = some s' ∧ P s' ∧ g s' = some s

/-- A run of `g` undoes a run of `f` of the same length. -/
theorem Undoes.iterate (h : Undoes P f g) (n : Nat) : Undoes P (iterate f n) (iterate g n) := by
  induction n with
  | zero => exact fun s hs => ⟨s, rfl, hs, rfl⟩
  | succ n ih =>
      intro s hs
      obtain ⟨s₁, hf, hs₁, hg⟩ := h s hs
      obtain ⟨s₂, hf', hs₂, hg'⟩ := ih s₁ hs₁
      refine ⟨s₂, ?_, hs₂, ?_⟩
      · rw [iterate_succ_of_eq hf, hf']
      · rw [iterate_succ', hg', Option.bind_some, hg]

end RoundTrip

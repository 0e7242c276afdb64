import Mathlib.Data.List.Basic

/-!
# Logs that can be undone

A machine handles entries one after the other and leaves a mark on each.  Its log says which
entries led to its state; the last one can be taken back as long as its mark is there.
-/

variable {σ ε μ : Type*}

/-- The entries `l`, handled in their order by `f`, lead from `s₀` to `s`, and bear the marks that
`f` left on them. -/
inductive UndoLog (f : σ → ε → σ × μ) (mark : ε → μ) (s₀ : σ) : List ε → σ → Prop
  | nil : UndoLog f mark s₀ [] s₀
  | snoc {l : List ε} {s : σ} {e : ε} : UndoLog f mark s₀ l s → mark e = (f s e).2 →
      UndoLog f mark s₀ (l ++ [e]) (f s e).1

namespace UndoLog

variable {f f' : σ → ε → σ × μ} {mark mark' : ε → μ} {s₀ s : σ} {l : List ε} {e : ε}

/-- The last entry of a log, and what was there before it. -/
theorem last (h : UndoLog f mark s₀ (l ++ [e]) s) :
    ∃ t, UndoLog f mark s₀ l t ∧ s = (f t e).1 ∧ mark e = (f t e).2 := by
  generalize hl : l ++ [e] = l' at h
  cases h with
  | nil => simp at hl
  | @snoc l₁ t e₁ h hmark =>
      obtain ⟨rfl, he⟩ := List.append_inj' hl rfl
      cases he
      exact ⟨t, h, rfl, hmark⟩

/-- A log holds as long as its own entries keep their marks and are handled as they were. -/
theorem congr (h : UndoLog f mark s₀ l s) (hf : ∀ e ∈ l, ∀ s, f' s e = f s e)
    (hmark : ∀ e ∈ l, mark' e = mark e) : UndoLog f' mark' s₀ l s := by
  induction h with
  | nil => exact .nil
  | @snoc l s e _ he ih =>
      have hmem : e ∈ l ++ [e] := List.mem_append_right l (List.mem_singleton_self e)
      have hold := ih (fun x hx => hf x (List.mem_append_left [e] hx))
        fun x hx => hmark x (List.mem_append_left [e] hx)
      rw [← hf e hmem s]
      refine hold.snoc ?_
      rw [hmark e hmem, hf e hmem s, he]

end UndoLog

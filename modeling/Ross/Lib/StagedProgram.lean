import Mathlib.Logic.Basic

/-!
# Programs as lists of calls with stages

A program is a list of calls that are still to be made.  `next` says at which
stages a call may be made and what stage the program is at after it; a program
is admitted at a stage when each of its calls may be made in its turn.
-/

namespace StagedProgram

variable {σ α : Type*} (next : σ → α → Option σ)

/-- Every call of `cs` may be made in its turn, the first one at the stage `st`. -/
def Admits : σ → List α → Prop
  | _, [] => True
  | st, c :: cs => ∃ st', next st c = some st' ∧ Admits st' cs

variable {next}

theorem admits_cons {st : σ} {c : α} {cs : List α} :
    Admits next st (c :: cs) ↔ ∃ st', next st c = some st' ∧ Admits next st' cs := Iff.rfl

/-- One call whose stages are known. -/
theorem Admits.cons {st st' : σ} {c : α} {cs : List α} (hc : next st c = some st')
    (h : Admits next st' cs) : Admits next st (c :: cs) := ⟨st', hc, h⟩

/-- Calls that keep the stage may stand before any program. -/
theorem Admits.append_of_keep {st : σ} {cs cs' : List α} (hc : ∀ c ∈ cs, next st c = some st)
    (h : Admits next st cs') : Admits next st (cs ++ cs') := by
  induction cs with
  | nil => exact h
  | cons c cs ih =>
      have hhead : next st c = some st := hc c List.mem_cons_self
      have htail : ∀ c' ∈ cs, next st c' = some st := fun c' hc' =>
        hc c' (List.mem_cons_of_mem c hc')
      exact (ih htail).cons hhead

/-- What holds of every call allowed at stages that only lead to one another. -/
theorem Admits.forall_mem {P : σ → Prop} {Q : α → Prop}
    (hstep : ∀ {st c st'}, P st → next st c = some st' → P st' ∧ Q c) {st : σ} {cs : List α}
    (hst : P st) (h : Admits next st cs) : ∀ c ∈ cs, Q c := by
  induction cs generalizing st with
  | nil => simp
  | cons c cs ih =>
      obtain ⟨st', hc, h⟩ := admits_cons.mp h
      obtain ⟨hst', hq⟩ := hstep hst hc
      exact List.forall_mem_cons.mpr ⟨hq, ih hst' h⟩

/-- A stage that allows all that another one allows, and leads to stages that do,
admits its programs. -/
theorem Admits.mono {le : σ → σ → Prop}
    (hle : ∀ {a b : σ} {c : α} {a' : σ}, le a b → next a c = some a' →
      ∃ b', next b c = some b' ∧ le a' b') {a b : σ} {cs : List α} (hab : le a b)
    (h : Admits next a cs) : Admits next b cs := by
  induction cs generalizing a b with
  | nil => trivial
  | cons c cs ih =>
      obtain ⟨a', ha, h⟩ := admits_cons.mp h
      obtain ⟨b', hb, hab'⟩ := hle hab ha
      exact (ih hab' h).cons hb

end StagedProgram

import Mathlib.Logic.Basic

/-!
# Labelled transition systems

Runs of a labelled step relation, the rule that carries an invariant along a
run, and runs restricted to the steps that meet a side condition.  Nothing here
depends on what the states and the labels are.
-/

namespace Transition

variable {σ ι : Type*}

/-- States reached from `init` by steps that all meet `ok`. -/
inductive ReachableVia (init : σ → Prop) (step : σ → ι → σ → Prop) (ok : σ → ι → Prop) :
    σ → Prop
  | start {s : σ} : init s → ReachableVia init step ok s
  | next {s s' : σ} {i : ι} :
      ReachableVia init step ok s → ok s i → step s i s' → ReachableVia init step ok s'

/-- States reached from `init` by any steps. -/
def Reachable (init : σ → Prop) (step : σ → ι → σ → Prop) : σ → Prop :=
  ReachableVia init step fun _ _ => True

variable {init : σ → Prop} {step : σ → ι → σ → Prop} {ok : σ → ι → Prop}

namespace ReachableVia

/-- An invariant of the start states that every admitted step keeps holds in
every state reached. -/
theorem invariant {P : σ → Prop} (hinit : ∀ s, init s → P s)
    (hstep : ∀ s i s', P s → ok s i → step s i s' → P s') {s : σ}
    (hs : ReachableVia init step ok s) : P s := by
  induction hs with
  | start h => exact hinit _ h
  | next _ hok hst ih => exact hstep _ _ _ ih hok hst

/-- Weakening the side condition keeps the states reachable. -/
theorem mono {ok' : σ → ι → Prop} (h : ∀ s i, ok s i → ok' s i) {s : σ}
    (hs : ReachableVia init step ok s) : ReachableVia init step ok' s := by
  induction hs with
  | start hi => exact .start hi
  | next _ hok hst ih => exact .next ih (h _ _ hok) hst

end ReachableVia

/-- Follow a list of labels with an executable step. -/
def runList {ε : Type*} (exec : σ → ι → Except ε σ) : σ → List ι → Except ε σ
  | s, [] => .ok s
  | s, i :: is =>
      match exec s i with
      | .ok s' => runList exec s' is
      | .error e => .error e

/-- The steps of `exec` that pass the check `chk`. -/
def checked {ε : Type*} (exec : σ → ι → Except ε σ) (chk : σ → ι → Bool) (s : σ) (i : ι) :
    Except Unit σ :=
  if chk s i then
    match exec s i with
    | .ok s' => .ok s'
    | .error _ => .error ()
  else .error ()

/-- A computation whose result passes a test has a result. -/
theorem exists_ok_of_any {ε α : Type*} {r : Except ε α} {test : α → Bool}
    (h : r.toOption.any test = true) : ∃ a, r = .ok a ∧ test a = true := by
  cases r with
  | error e => cases h
  | ok a => exact ⟨a, rfl, h⟩

section Checked

variable {ε : Type*} {exec : σ → ι → Except ε σ}

theorem checked_ok {chk : σ → ι → Bool} {s s' : σ} {i : ι} (h : checked exec chk s i = .ok s') :
    chk s i = true ∧ exec s i = .ok s' := by
  unfold checked at h
  split at h
  next hc =>
    split at h
    next hx =>
      cases h
      exact ⟨hc, hx⟩
    · cases h
  · cases h

/-- A state computed through steps that pass a check is reached by steps that
meet what the check decides. -/
theorem ReachableVia.of_runList {chk : σ → ι → Bool} (hchk : ∀ s i, chk s i = true → ok s i)
    {s t : σ} {is : List ι} (hs : ReachableVia init (fun a i b => exec a i = .ok b) ok s)
    (h : runList (checked exec chk) s is = .ok t) :
    ReachableVia init (fun a i b => exec a i = .ok b) ok t := by
  induction is generalizing s with
  | nil =>
      simp only [runList, Except.ok.injEq] at h
      exact h ▸ hs
  | cons i is ih =>
      simp only [runList] at h
      split at h
      next s' hx =>
        obtain ⟨hc, hx⟩ := checked_ok hx
        exact ih (.next hs (hchk s i hc) hx) h
      · cases h

/-- A checked run that ends in a state which passes a test reaches such a
state. -/
theorem ReachableVia.exists_of_runList (chk : σ → ι → Bool) (test : σ → Bool) (is : List ι)
    (hchk : ∀ s i, chk s i = true → ok s i) {s : σ}
    (hs : ReachableVia init (fun a i b => exec a i = .ok b) ok s)
    (h : (runList (checked exec chk) s is).toOption.any test = true) :
    ∃ t, ReachableVia init (fun a i b => exec a i = .ok b) ok t ∧ test t = true := by
  obtain ⟨t, hr, ht⟩ := exists_ok_of_any h
  exact ⟨t, hs.of_runList hchk hr, ht⟩

/-- A run that ends in a state which passes a test reaches such a state. -/
theorem Reachable.exists_of_runList (test : σ → Bool) (is : List ι) {s : σ}
    (hs : Reachable init (fun a i b => exec a i = .ok b) s)
    (h : (runList (checked exec fun _ _ => true) s is).toOption.any test = true) :
    ∃ t, Reachable init (fun a i b => exec a i = .ok b) t ∧ test t = true :=
  ReachableVia.exists_of_runList (fun _ _ => true) test is (fun _ _ _ => trivial) hs h

/-- The same for a run whose start is computed. -/
theorem Reachable.exists_of_start {start : Except ε σ} (test : σ → Bool) (is : List ι)
    (h : (start.toOption.bind fun s =>
      (runList (checked exec fun _ _ => true) s is).toOption).any test = true) :
    ∃ t, Reachable (fun s => start = .ok s) (fun a i b => exec a i = .ok b) t ∧
      test t = true := by
  cases start with
  | error e => cases h
  | ok s => exact Reachable.exists_of_runList test is (.start rfl) h

end Checked

/-! ## Runs with a record -/

section Record

variable {γ : Type*} (observe : σ → ι → σ → γ → γ)

/-- The steps of a run that keep a record of the steps so far beside the state. -/
def recorded (step : σ → ι → σ → Prop) : σ × γ → ι → σ × γ → Prop := fun a i b =>
  step a.1 i b.1 ∧ b.2 = observe a.1 i b.1 a.2

/-- The states of all runs, with the records of the runs that reach them. -/
def Recorded (init : σ → Prop) (step : σ → ι → σ → Prop) (g₀ : γ) : σ × γ → Prop :=
  Reachable (fun a => init a.1 ∧ a.2 = g₀) (recorded observe step)

variable {observe} {g₀ : γ}

/-- Every run can be recorded. -/
theorem Reachable.recorded {s : σ} (h : Reachable init step s) :
    ∃ g, Recorded observe init step g₀ (s, g) := by
  induction h with
  | start hi => exact ⟨g₀, .start ⟨hi, rfl⟩⟩
  | @next s s' i _ _ hst ih =>
      obtain ⟨g, hg⟩ := ih
      exact ⟨observe s i s' g, .next hg trivial ⟨hst, rfl⟩⟩

/-- A recorded run can keep a second record beside the first. -/
theorem Recorded.pair {δ : Type*} {observe' : σ → ι → σ → δ → δ} {d₀ : δ} {a : σ × γ}
    (h : Recorded observe init step g₀ a) :
    ∃ d, Recorded (fun s i s' r => (observe s i s' r.1, observe' s i s' r.2)) init step (g₀, d₀)
      (a.1, a.2, d) := by
  induction h with
  | start hi =>
      obtain ⟨hinit, hg⟩ := hi
      exact ⟨d₀, .start ⟨hinit, by rw [hg]⟩⟩
  | @next a b i _ _ hst ih =>
      obtain ⟨d, hd⟩ := ih
      refine ⟨observe' a.1 i b.1 d, .next hd trivial ⟨hst.1, ?_⟩⟩
      rw [hst.2]

/-- The record of a computed run is computed beside it. -/
theorem Recorded.exists_of_runList {ε : Type*} {exec : σ → ι → Except ε σ} (test : σ × γ → Bool)
    (is : List ι) {s : σ} (hs : init s)
    (h : (runList (checked (fun a i => (exec a.1 i).map fun s' => (s', observe a.1 i s' a.2))
      fun _ _ => true) (s, g₀) is).toOption.any test = true) :
    ∃ a, Recorded observe init (fun a i b => exec a i = .ok b) g₀ a ∧ test a = true := by
  have hstep : (fun (a : σ × γ) i b =>
      (exec a.1 i).map (fun s' => (s', observe a.1 i s' a.2)) = .ok b) =
        recorded observe fun a i b => exec a i = .ok b := by
    funext a i b
    refine propext ?_
    cases hx : exec a.1 i with
    | error e => simp [recorded, hx, Except.map]
    | ok s' =>
        simp only [recorded, hx, Except.map, Except.ok.injEq]
        constructor
        · rintro rfl
          exact ⟨rfl, rfl⟩
        · rintro ⟨rfl, hb⟩
          rw [← hb]
  unfold Recorded
  rw [← hstep]
  exact Reachable.exists_of_runList test is (.start ⟨hs, rfl⟩) h

end Record

/-! ## Two systems in lockstep -/

section Lockstep

variable {τ ε : Type*} {exec : σ → ι → Except ε σ} {exec' : τ → ι → Except ε τ}

/-- Every step of the run along a list of labels meets the side condition. -/
def AlongList (exec : σ → ι → Except ε σ) (ok : σ → ι → Prop) : σ → List ι → Prop
  | _, [] => True
  | s, i :: is => ok s i ∧ ∀ s', exec s i = .ok s' → AlongList exec ok s' is

/-- A run whose steps pass a check that decides enough meets the side condition. -/
theorem AlongList.of_checked {ok : σ → ι → Prop} {chk : σ → ι → Bool}
    (hchk : ∀ s i, chk s i = true → ok s i) {s : σ} {is : List ι}
    (h : (runList (checked exec chk) s is).isOk = true) : AlongList exec ok s is := by
  induction is generalizing s with
  | nil => exact trivial
  | cons i is ih =>
      simp only [runList] at h
      split at h
      next s₁ hx =>
        obtain ⟨hc, hx⟩ := checked_ok hx
        refine ⟨hchk s i hc, fun s' hs' => ?_⟩
        rw [hx] at hs'
        cases hs'
        exact ih h
      · cases h

/-- A relation that every step of the first system carries to the second carries
runs along the same labels. -/
theorem runList_simulates {rel : σ → τ → Prop}
    (hstep : ∀ s t i s', rel s t → ok s i → exec s i = .ok s' →
      ∃ t', exec' t i = .ok t' ∧ rel s' t') {s s' : σ} {t : τ} {is : List ι} (hr : rel s t)
    (hok : AlongList exec ok s is) (h : runList exec s is = .ok s') :
    ∃ t', runList exec' t is = .ok t' ∧ rel s' t' := by
  induction is generalizing s t with
  | nil =>
      simp only [runList, Except.ok.injEq] at h
      exact ⟨t, rfl, h ▸ hr⟩
  | cons i is ih =>
      simp only [runList] at h
      split at h
      next s₁ hx =>
        obtain ⟨t₁, hx', hr₁⟩ := hstep s t i s₁ hr hok.1 hx
        obtain ⟨t', hrun, hr'⟩ := ih hr₁ (hok.2 s₁ hx) h
        refine ⟨t', ?_, hr'⟩
        simp only [runList, hx']
        exact hrun
      · cases h

end Lockstep

end Transition

import Ross.Core.Opts
import Mathlib.Data.List.Find
import Mathlib.Data.List.Infix

/-!
# The option that an argument selects

An argument without `=` selects an option by its full name.  With `=` only as many
characters are compared as the argument has before it, so that the first option whose name
begins with them is taken.
-/

namespace Ross

open CString

/-! ## Options and their names -/

/-- An entry that `match_opt` does not pass over. -/
def TwOptdef.isOption (d : TwOptdef) : Bool := d.type ≠ .group && d.name.isSome

/-- The name of the option begins with `name`. -/
def TwOptdef.beginsWith (name : List Char) (d : TwOptdef) : Bool :=
  d.name.any fun n => name.isPrefixOf n

/-- The options of all tables, in the order in which they are looked at. -/
def OptGroups.options (optGroups : OptGroups) : List TwOptdef :=
  (optGroups.tables ++ [basic]).flatten.filter TwOptdef.isOption

/-- The option with this name, the first if there are several. -/
def OptGroups.namedOpt (optGroups : OptGroups) (name : List Char) : Option TwOptdef :=
  optGroups.options.find? fun d => d.name = some name

/-- The argument `--name`. -/
def bareArg (name : List Char) : List Char := '-' :: '-' :: name

/-- The argument `--name=value`. -/
def valueArg (name value : List Char) : List Char := bareArg (name ++ '=' :: value)

variable {d : TwOptdef} {name value : List Char} {optGroups : OptGroups}

theorem TwOptdef.isOption_of_isMatch {text : List Char} (h : d.isMatch text = true) :
    d.isOption = true := by
  unfold isMatch at h
  unfold isOption
  cases hname : d.name with
  | none =>
      rw [hname] at h
      cases h
  | some n =>
      by_cases htype : d.type = .group
      · rw [hname] at h
        simp only [htype, if_true] at h
        cases h
      · simp [htype]

theorem selectOpt_eq_find? (text : List Char) :
    selectOpt (optGroups.tables ++ [basic]) (bareArg text) =
      optGroups.options.find? (TwOptdef.isMatch text) := by
  unfold selectOpt OptGroups.options
  rw [List.find?_filter, ← List.find?_flatten]
  congr 1
  funext d
  have hbare : (bareArg text).drop 2 = text := rfl
  rw [hbare]
  cases hd : d.isMatch text with
  | true => rw [TwOptdef.isOption_of_isMatch hd]; rfl
  | false => simp

theorem idxOf_eq (h : '=' ∉ name) : (name ++ '=' :: value).idxOf '=' = name.length := by
  rw [List.idxOf_append_of_notMem h, List.idxOf_cons_self, Nat.add_zero]

theorem argValue_valueArg (h : '=' ∉ name) : argValue (name ++ '=' :: value) = some value := by
  unfold argValue
  rw [idxOf_eq h, if_pos (by simp), List.drop_append, Nat.add_sub_cancel_left,
    List.drop_eq_nil_of_le (Nat.le_succ _)]
  rfl

/-- The test of an option that is not passed over. -/
theorem isMatch_of_isOption (text : List Char) (hd : d.isOption = true) :
    ∃ n, d.name = some n ∧ d.isMatch text =
      if '=' ∈ text then strncmpEq n text (text.idxOf '=') else decide (n = text) := by
  unfold TwOptdef.isOption at hd
  obtain ⟨htype, hsome⟩ := (Bool.and_eq_true _ _).mp hd
  obtain ⟨n, hn⟩ := Option.isSome_iff_exists.mp hsome
  refine ⟨n, hn, ?_⟩
  unfold TwOptdef.isMatch
  simp only [hn, if_neg (of_decide_eq_true htype)]

theorem isMatch_bare (h : '=' ∉ name) (hd : d.isOption = true) :
    d.isMatch name = decide (d.name = some name) := by
  obtain ⟨n, hn, hmatch⟩ := isMatch_of_isOption name hd
  rw [hmatch, if_neg h, hn]
  simp only [Option.some.injEq]

/-- With a value the names are compared as far as the argument goes. -/
theorem isMatch_withValue (h : '=' ∉ name) (hd : d.isOption = true) :
    d.isMatch (name ++ '=' :: value) = d.beginsWith name := by
  obtain ⟨n, hn, hmatch⟩ := isMatch_of_isOption (name ++ '=' :: value) hd
  unfold TwOptdef.beginsWith
  rw [hmatch, if_pos (by simp), idxOf_eq h, hn, Option.any_some]
  unfold strncmpEq
  rw [List.take_left, Bool.eq_iff_iff, decide_eq_true_iff, List.isPrefixOf_iff_prefix,
    List.prefix_iff_eq_take]
  exact eq_comm

theorem beginsWith_self (h : decide (d.name = some name) = true) : d.beginsWith name = true := by
  unfold TwOptdef.beginsWith
  rw [of_decide_eq_true h, Option.any_some, List.isPrefixOf_iff_prefix]

/-- Two searches, of which the second finds less, find the same element. -/
theorem find?_eq_find?_iff {α : Type} {p q : α → Bool} (hqp : ∀ a, q a = true → p a = true)
    (l : List α) : l.find? p = l.find? q ↔ ∀ a ∈ l.takeWhile (fun a => !q a), p a = false := by
  induction l with
  | nil => simp
  | cons a l ih =>
      cases hq : q a with
      | true => simp [hqp a hq, hq]
      | false =>
          rw [List.find?_cons_of_neg (p := q) (by rw [hq]; decide),
            List.takeWhile_cons_of_pos (by rw [hq]; rfl), List.forall_mem_cons]
          cases hp : p a with
          | false =>
              rw [List.find?_cons_of_neg (by rw [hp]; decide), ih]
              exact (and_iff_right rfl).symm
          | true =>
              rw [List.find?_cons_of_pos hp]
              constructor
              · intro h
                have hqa := List.find?_some h.symm
                rw [hq] at hqa
                cases hqa
              · intro h
                cases h.1

/-! ## The variables -/

/-- Except for the arguments in a file, an option changes no variable but its own. -/
theorem applyOpt_frame {D : Type} {c : OptSetup D} {nested : Option (Nested D)}
    {value : Option (List Char)} {vars vars' : OptVars D} (hd : d.type ≠ .argsfile)
    (h : applyOpt c nested d value vars = .ok vars') {x : Nat} (hx : x ≠ d.value) :
    vars' x = vars x := by
  unfold applyOpt at h
  rw [if_neg hd] at h
  cases hv : newValue c d value with
  | error stop =>
      rw [hv] at h
      cases h
  | ok v =>
      rw [hv] at h
      injection h with h
      rw [← h]
      exact Function.update_of_ne hx v vars

/-- What `--name=value` is to do: the value is applied to the option with that name, no
other variable changes, an unknown name is reported, and `--name` selects the same option. -/
structure SelectsByName (optGroups : OptGroups) (name value : List Char) : Prop where
  selected : selectOpt (optGroups.tables ++ [basic]) (valueArg name value) =
    optGroups.namedOpt name
  bare : selectOpt (optGroups.tables ++ [basic]) (bareArg name) =
    selectOpt (optGroups.tables ++ [basic]) (valueArg name value)
  applied : ∀ d, optGroups.namedOpt name = some d →
    ∀ (D : Type) (c : OptSetup D) (nested : Option (Nested D)) (vars : OptVars D),
      matchOpt c nested (optGroups.tables ++ [basic]) (valueArg name value) vars =
        applyOpt c nested d (some value) vars
  frame : ∀ d, optGroups.namedOpt name = some d → d.type ≠ .argsfile →
    ∀ (D : Type) (c : OptSetup D) (nested : Option (Nested D)) (vars vars' : OptVars D),
      matchOpt c nested (optGroups.tables ++ [basic]) (valueArg name value) vars = .ok vars' →
        ∀ x, x ≠ d.value → vars' x = vars x
  unknown : optGroups.namedOpt name = none →
    ∀ (D : Type) (c : OptSetup D) (nested : Option (Nested D)) (vars : OptVars D),
      matchOpt c nested (optGroups.tables ++ [basic]) (valueArg name value) vars =
        .error (.notRecognized (valueArg name value))

/-- An argument with a value selects by the full name if and only if, of the options before
the one of that name, none has a name that begins with it. -/
theorem selectsByName_iff (optGroups : OptGroups) (name value : List Char) (h : '=' ∉ name) :
    SelectsByName optGroups name value ↔
      ∀ d ∈ optGroups.options.takeWhile (fun d => d.name ≠ some name),
        d.beginsWith name = false := by
  have hvalue : selectOpt (optGroups.tables ++ [basic]) (valueArg name value) =
      optGroups.options.find? (TwOptdef.beginsWith name) := by
    unfold valueArg
    rw [selectOpt_eq_find?]
    apply List.find?_congr
    intro d hd
    exact isMatch_withValue h (List.mem_filter.mp hd).2
  have hbare : selectOpt (optGroups.tables ++ [basic]) (bareArg name) =
      optGroups.namedOpt name := by
    rw [selectOpt_eq_find?]
    apply List.find?_congr
    intro d hd
    exact isMatch_bare h (List.mem_filter.mp hd).2
  have harg : argValue ((valueArg name value).drop 2) = some value := argValue_valueArg h
  have hiff : SelectsByName optGroups name value ↔
      selectOpt (optGroups.tables ++ [basic]) (valueArg name value) =
        optGroups.namedOpt name := by
    constructor
    · exact SelectsByName.selected
    · intro hsel
      have happ : ∀ d, optGroups.namedOpt name = some d →
          ∀ (D : Type) (c : OptSetup D) (nested : Option (Nested D)) (vars : OptVars D),
            matchOpt c nested (optGroups.tables ++ [basic]) (valueArg name value) vars =
              applyOpt c nested d (some value) vars := by
        intro d hd D c nested vars
        unfold matchOpt
        rw [hsel, hd, harg]
      refine ⟨hsel, hbare.trans hsel.symm, happ, ?_, ?_⟩
      · intro d hd htype D c nested vars vars' hok x hx
        rw [happ d hd] at hok
        exact applyOpt_frame htype hok hx
      · intro hnone D c nested vars
        unfold matchOpt
        rw [hsel, hnone]
  rw [hiff, hvalue]
  unfold OptGroups.namedOpt
  rw [find?_eq_find?_iff (fun d => beginsWith_self)]
  simp only [decide_not]

/-- A kernel with the option `nkp`. -/
def kernelOptions : OptGroups :=
  twOptAdd .start [⟨.group, none, 0⟩, ⟨.uint, some ['n', 'k', 'p'], 1⟩]

theorem selectsByName_nkp : SelectsByName kernelOptions ['n', 'k', 'p'] ['3'] :=
  (selectsByName_iff kernelOptions ['n', 'k', 'p'] ['3'] (by decide)).mpr (by decide)

/-- `--n=3` is not reported: it sets the variable of `nkp`. -/
theorem prefix_selected :
    ¬ ∀ (optGroups : OptGroups) (name value : List Char), '=' ∉ name →
      SelectsByName optGroups name value := by
  intro h
  have hsel := (h kernelOptions ['n'] ['3'] (by decide)).selected
  revert hsel
  decide

end Ross

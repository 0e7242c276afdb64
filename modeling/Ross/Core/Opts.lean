import Ross.Lib.CString

/-!
# Options

`tw-opts.c`: the tables of options, the selection of an option by an argument, the values
of options, and the arguments in a file.  A string is the list of its characters, and the
variables of the options are at numbered places.
-/

namespace Ross

open CString

/-- `tw_opttype`. -/
inductive TwOpttype
  | group
  | ulong
  | ulonglong
  | uint
  | stime
  | double
  | char
  | flag
  | argsfile
  | showhelp
deriving DecidableEq

/-- `tw_optdef`; `value` is the place of the variable. -/
structure TwOptdef where
  type : TwOpttype
  name : Option (List Char)
  value : Nat
deriving DecidableEq

/-- What the variable of an option holds; `D` is `double`, which `tw_stime` is too. -/
inductive OptValue (D : Type)
  | ulong (v : BitVec 64)
  | ulonglong (v : BitVec 64)
  | uint (v : BitVec 32)
  | stime (v : D)
  | double (v : D)
  | char (s : List Char)
deriving DecidableEq

/-- The variables of the options. -/
abbrev OptVars (D : Type) := Nat → OptValue D

/-- `strtod`, the content of the files that can be opened, and the sizes of the arrays
that the options of type `TWOPTTYPE_CHAR` have. -/
structure OptSetup (D : Type) where
  strtod : List Char → D × List Char
  fopen : Option (List Char) → Option (List Char)
  room : Nat → Nat

/-- Where the program stops: with a message, with the help, or at an access or a `free`
that is not allowed. -/
inductive OptStop
  | needArgument (d : TwOptdef)
  | notRecognized (arg : List Char)
  | showHelp
  | notSupported
  | nestedArgsFile
  | invalidFilePath
  | dashDash
  | tooManyGroups
  | badAccess
deriving DecidableEq

/-! ## The tables -/

/-- `is_empty` of the table whose entries before `TWOPT_END` are `options`. -/
def isEmpty (options : List TwOptdef) : Bool := options.all fun d => d.type = .group

/-- `opt_groups` before its `NULL`: tables that are not empty. -/
structure OptGroups where
  tables : List (List TwOptdef)
  nonempty : ∀ options ∈ tables, isEmpty options = false

/-- `opt_groups` at first. -/
def OptGroups.start : OptGroups := ⟨[], fun _ h => absurd h List.not_mem_nil⟩

/-- `tw_opt_add`. -/
def twOptAdd (optGroups : OptGroups) (options : List TwOptdef) : OptGroups :=
  if h : isEmpty options then optGroups
  else
    { tables := optGroups.tables ++ [options]
      nonempty := by
        intro o ho
        rcases List.mem_append.mp ho with hmem | hmem
        · exact optGroups.nonempty o hmem
        · rw [List.mem_singleton.mp hmem]
          exact Bool.eq_false_iff.mpr h }

/-- The table `basic`. -/
def basic : List TwOptdef := [⟨.showhelp, some ['h', 'e', 'l', 'p'], 0⟩]

/-- `all_groups` as `tw_opt_parse` fills it, with ten elements.  Its loop would skip an empty
table, of which there is none, and does not reach its test for too many tables: with a ninth
table, `NULL` does not fit behind `basic`. -/
def allGroups (optGroups : OptGroups) : Except OptStop (List (List TwOptdef)) :=
  if 8 < optGroups.tables.length then .error .badAccess
  else .ok (optGroups.tables ++ [basic])

/-- The comparison of `match_opt`; `text` is the argument after its two dashes. -/
def TwOptdef.isMatch (text : List Char) (d : TwOptdef) : Bool :=
  match d.name with
  | none => false
  | some name =>
      if d.type = .group then false
      else if '=' ∈ text then strncmpEq name text (text.idxOf '=')
      else name = text

/-- The string that `match_opt` passes on, the one behind the first `=`. -/
def argValue (text : List Char) : Option (List Char) :=
  if '=' ∈ text then some (text.drop (text.idxOf '=' + 1)) else none

/-- The option that `match_opt` applies. -/
def selectOpt (groups : List (List TwOptdef)) (arg : List Char) : Option TwOptdef :=
  groups.findSome? fun group => group.find? (TwOptdef.isMatch (arg.drop 2))

/-! ## The words of a file -/

/-- `ltrim`. -/
def ltrim (line : List Char) (s : Nat) : Option Nat :=
  if charAt line (skip isspace line s) = '\x00' ∨ charAt line (skip isspace line s) = '#' then
    none
  else some (skip isspace line s)

/-- The characters that the loop of `next_argument` consumes. -/
def inArgument (c : Char) : Bool := !(isspace c || c = '\x00' || c = '#')

/-- `next_argument`: the line afterwards, and the pointer. -/
def nextArgument (line : List Char) (p : Nat) : List Char × Nat :=
  if charAt line (skip inArgument line p) = '\x00' then (line, skip inArgument line p)
  else if charAt line (skip inArgument line p) = '#' then
    (line.set (skip inArgument line p) '\x00', skip inArgument line p)
  else (line.set (skip inArgument line p) '\x00', skip inArgument line p + 1)

theorem ltrim_of_nul {line : List Char} {s : Nat} (h : charAt line s = '\x00') :
    ltrim line s = none := by
  have hstop : skip isspace line s = s := skip_eq_self (by rw [h]; rfl)
  unfold ltrim
  rw [hstop]
  exact if_pos (.inl h)

theorem ltrim_le {line : List Char} {s q : Nat} (h : ltrim line s = some q) :
    s ≤ q ∧ q < line.length := by
  unfold ltrim at h
  split at h
  · cases h
  · next hc =>
      injection h with h
      rw [← h]
      refine ⟨le_skip _ _ _, ?_⟩
      by_contra hq
      exact hc (.inl (charAt_of_length_le (Nat.le_of_not_lt hq)))

theorem nextArgument_ltrim_lt {line : List Char} {p q : Nat}
    (h : ltrim (nextArgument line p).1 (nextArgument line p).2 = some q) :
    (nextArgument line p).1.length - q < line.length - p := by
  have hp : p ≤ skip inArgument line p := le_skip _ _ _
  have hq := (ltrim_le h).2
  unfold nextArgument at h hq ⊢
  split at h
  · next hnul =>
      rw [ltrim_of_nul hnul] at h
      cases h
  · next hnul =>
      rw [if_neg hnul] at hq ⊢
      split at h
      · rw [ltrim_of_nul (charAt_set_nul _ _)] at h
        cases h
      · next hhash =>
          rw [if_neg hhash] at hq ⊢
          have hle := (ltrim_le h).1
          simp only [List.length_set] at hq ⊢
          omega

/-- The inner loop of `parse_args_file`, at the pointer `p` into the line. -/
def lineArguments (line : List Char) (p : Nat) (argv : List (List Char)) :
    Except OptStop (List (List Char)) :=
  let argument := stringAt (nextArgument line p).1 p
  if argument = ['-', '-'] then .error .dashDash
  else
    match h : ltrim (nextArgument line p).1 (nextArgument line p).2 with
    | none => .ok (argv ++ [argument])
    | some q => lineArguments (nextArgument line p).1 q (argv ++ [argument])
termination_by line.length - p
decreasing_by exact nextArgument_ltrim_lt h

/-- A turn of the loop of `parse_args_file`. -/
def readLine (argv : List (List Char)) (line : List Char) : Except OptStop (List (List Char)) :=
  match ltrim line 0 with
  | none => .ok argv
  | some p => lineArguments line p argv

/-- `parse_args_file`: what it appends to the name of the program. -/
def parseArgsFile (content : Option (List Char)) : Except OptStop (List (List Char)) :=
  match content with
  | none => .error .invalidFilePath
  | some content => (getlines content).foldlM readLine []

/-! ## Values and arguments -/

section

variable {D : Type} (c : OptSetup D)

/-- The number that `apply_opt` reads. -/
def unsignedValue (d : TwOptdef) (value : Option (List Char)) : Except OptStop (BitVec 64) :=
  match value with
  | none => .error (.needArgument d)
  | some value =>
      if (strtoul value).2 ≠ [] then .error (.needArgument d) else .ok (strtoul value).1

/-- The `double` that `apply_opt` reads. -/
def doubleValue (d : TwOptdef) (value : Option (List Char)) : Except OptStop D :=
  match value with
  | none => .error (.needArgument d)
  | some value =>
      if (c.strtod value).2 ≠ [] then .error (.needArgument d) else .ok (c.strtod value).1

/-- What `apply_opt` stores in the variable of an option. -/
def newValue (d : TwOptdef) (value : Option (List Char)) : Except OptStop (OptValue D) :=
  match d.type with
  | .ulong => (unsignedValue d value).map .ulong
  | .ulonglong => (unsignedValue d value).map .ulonglong
  | .uint => (unsignedValue d value).map fun v => .uint (v.setWidth 32)
  | .double => (doubleValue c d value).map .double
  | .stime => (doubleValue c d value).map .stime
  | .char =>
      match value with
      | none => .error (.needArgument d)
      | some value =>
          if c.room d.value ≤ value.length then .error .badAccess else .ok (.char value)
  | .flag => .ok (.uint 1)
  | .showhelp => .error .showHelp
  | .group | .argsfile => .error .notSupported

/-- The parser of the arguments in a file: the variables and the arguments it leaves. -/
abbrev Nested (D : Type) :=
  List (List Char) → OptVars D → Except OptStop (OptVars D × List (List Char))

/-- The case `TWOPTTYPE_ARGSFILE` of `apply_opt`.  `nested` parses the arguments of a file;
it is absent when `args_file_depth` is not 0.  If it leaves arguments, the loop behind it
frees the first one more than once. -/
def applyArgsFile (nested : Option (Nested D)) (value : Option (List Char))
    (vars : OptVars D) : Except OptStop (OptVars D) :=
  match nested with
  | none => .error .nestedArgsFile
  | some parse => do
      let argv ← parseArgsFile (c.fopen value)
      let (vars, rest) ← parse argv vars
      if rest = [] then .ok vars else .error .badAccess

/-- `apply_opt`. -/
def applyOpt (nested : Option (Nested D)) (d : TwOptdef) (value : Option (List Char))
    (vars : OptVars D) : Except OptStop (OptVars D) :=
  if d.type = .argsfile then applyArgsFile c nested value vars
  else (newValue c d value).map (Function.update vars d.value)

/-- `match_opt`. -/
def matchOpt (nested : Option (Nested D)) (groups : List (List TwOptdef)) (arg : List Char)
    (vars : OptVars D) : Except OptStop (OptVars D) :=
  match selectOpt groups arg with
  | some d => applyOpt c nested d (argValue (arg.drop 2)) vars
  | none => .error (.notRecognized arg)

/-- The loop of `tw_opt_parse` over the arguments. -/
def parseArguments (nested : Option (Nested D)) (groups : List (List TwOptdef)) :
    Nested D
  | [], vars => .ok (vars, [])
  | s :: argv, vars =>
      if !strncmpEq s ['-', '-'] 2 then .ok (vars, s :: argv)
      else if s = ['-', '-'] then .ok (vars, argv)
      else do
        let vars ← matchOpt c nested groups s vars
        parseArguments nested groups argv vars

/-- `tw_opt_parse` for the arguments after the name of the program. -/
def twOptParseAt (nested : Option (Nested D)) (optGroups : OptGroups) : Nested D :=
  fun argv vars => do
    let groups ← allGroups optGroups
    parseArguments c nested groups argv vars

/-- `tw_opt_parse` when it is called from outside, `args_file_depth` being 0. -/
def twOptParse (optGroups : OptGroups) : Nested D :=
  twOptParseAt c (some (twOptParseAt c none optGroups)) optGroups

end

end Ross

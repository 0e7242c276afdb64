import Ross.Core.Opts

/-!
# The arrays of option tables

`opt_groups` and `all_groups` of `tw-opts.c`, as `tw_opt_add` and `tw_opt_parse` fill them.  An
access outside of an array stops the run.
-/

namespace Ross

/-- The elements of `opt_groups`, and of `all_groups`. -/
def groupsSize : Nat := 10

/-- `opt_groups` with `opt_index`, and `all_groups`. -/
structure OptArrays where
  optGroups : Nat → Option (List TwOptdef)
  optIndex : Nat
  allGroups : Nat → Option (List TwOptdef)

/-- An assignment to the element `i` of an array. -/
def storeGroup (a : Nat → Option (List TwOptdef)) (i : Nat) (options : Option (List TwOptdef)) :
    Except OptStop (Nat → Option (List TwOptdef)) :=
  if i < groupsSize then .ok (Function.update a i options) else .error .badAccess

/-- The assignments of a table to the element `i`, and of `NULL` to the next one. -/
def storeLast (a : Nat → Option (List TwOptdef)) (i : Nat) (table : List TwOptdef) :
    Except OptStop (Nat → Option (List TwOptdef)) := do
  let a ← storeGroup a i (some table)
  storeGroup a (i + 1) none

namespace OptArrays

/-- The arrays at first. -/
def start : OptArrays := ⟨fun _ => none, 0, fun _ => none⟩

/-- `tw_opt_add`; `none` is the pointer `NULL`. -/
def twOptAdd (s : OptArrays) (options : Option (List TwOptdef)) : Except OptStop OptArrays :=
  match options with
  | none => .ok s
  | some table =>
      if isEmpty table then .ok s
      else do
        let optGroups ← storeLast s.optGroups s.optIndex table
        return { s with optGroups := optGroups, optIndex := s.optIndex + 1 }

/-- The loop of `tw_opt_parse` that fills `all_groups`, at the element `i` of `opt_groups` with
`n` elements to go; `i` when it ends. -/
def fillGroups : Nat → Nat → OptArrays → Except OptStop (Nat × OptArrays)
  | 0, _, _ => .error .badAccess
  | n + 1, i, s =>
      match s.optGroups i with
      | none => .ok (i, s)
      | some table =>
          if isEmpty table then fillGroups n (i + 1) s
          else if groupsSize ≤ i then .error .tooManyGroups
          else do
            let groups ← storeGroup s.allGroups i (some table)
            fillGroups n (i + 1) { s with allGroups := groups }

/-- `tw_opt_parse`, up to its loop over the arguments; a `tw_opt_parse` of the arguments in a file
does the same again. -/
def twOptParse (s : OptArrays) : Except OptStop OptArrays := do
  let (i, s) ← fillGroups groupsSize 0 s
  let groups ← storeLast s.allGroups i basic
  return { s with allGroups := groups }

/-- A sequence of calls of `tw_opt_add`, followed by `tw_opt_parse`. -/
def run (tables : List (Option (List TwOptdef))) : Except OptStop OptArrays := do
  let s ← tables.foldlM twOptAdd start
  s.twOptParse

end OptArrays

/-- The calls of `tw_opt_add` that add a table. -/
def addedTables (tables : List (Option (List TwOptdef))) : List (List TwOptdef) :=
  tables.reduceOption.filter fun table => !isEmpty table

end Ross

import Ross.Proofs.OptSelect

/-!
# Arguments in a file

`ltrim` and `next_argument` share a pointer into the line and store the ends of the words
in it.  What they find are the words before the first `#` of the line, and an argument that
names a file is replaced by the words of the file.
-/

namespace Ross

open CString

/-! ## A line -/

/-- The words of a line. -/
def lineWords (line : List Char) : List (List Char) := words (line.takeWhile fun c => c ≠ '#')

/-- The words of a file. -/
def fileWords (content : List Char) : List (List Char) := (getlines content).flatMap lineWords

/-- The result of the loops when they find the words `ws`. -/
def collected (argv ws : List (List Char)) : Except OptStop (List (List Char)) :=
  if ['-', '-'] ∈ ws then .error .dashDash else .ok (argv ++ ws)

variable {line : List Char} {p : Nat} {argv : List (List Char)}

theorem collected_nil (argv : List (List Char)) : collected argv [] = .ok argv := by
  unfold collected
  rw [if_neg (by simp), List.append_nil]

theorem collected_append (argv ws ws' : List (List Char)) :
    collected argv (ws ++ ws') = collected argv ws >>= fun argv => collected argv ws' := by
  unfold collected
  by_cases h : ['-', '-'] ∈ ws
  · rw [if_pos h, if_pos (List.mem_append_left _ h)]
    rfl
  · rw [if_neg h]
    simp only [List.mem_append, h, false_or, ← List.append_assoc]
    rfl

theorem collected_cons {w : List Char} (hw : w ≠ ['-', '-']) (argv ws : List (List Char)) :
    collected argv (w :: ws) = collected (argv ++ [w]) ws := by
  unfold collected
  simp only [List.mem_cons, Ne.symm hw, false_or, List.append_assoc, List.singleton_append]

/-- Where the loop of `next_argument` can stop. -/
theorem inArgument_eq_false {c : Char} (h : inArgument c = false) :
    isspace c = true ∨ c = '\x00' ∨ c = '#' := by
  unfold inArgument at h
  rw [Bool.not_eq_false', Bool.or_eq_true, Bool.or_eq_true, decide_eq_true_iff,
    decide_eq_true_iff, or_assoc] at h
  exact h

theorem of_inArgument {c : Char} (h : inArgument c = true) :
    isspace c = false ∧ c ≠ '\x00' ∧ c ≠ '#' := by
  unfold inArgument at h
  simpa [and_assoc] using h

theorem hash_of_isspace {c : Char} (h : isspace c = true) : decide (c ≠ '#') = true := by
  apply decide_eq_true
  intro hc
  rw [hc] at h
  cases h

/-- What `ltrim` returns: nothing when no word is left, or where the next one begins. -/
theorem ltrim_spec (hnul : ∀ c ∈ line.drop p, c ≠ '\x00') :
    (ltrim line p = none ∧ lineWords (line.drop p) = []) ∨
      ∃ q, ltrim line p = some q ∧ lineWords (line.drop p) = lineWords (line.drop q) ∧
        (line.drop q).takeWhile inArgument ≠ [] ∧ ∀ c ∈ line.drop q, c ≠ '\x00' := by
  have hwords : lineWords (line.drop p) = lineWords ((line.drop p).dropWhile isspace) :=
    (words_takeWhile_dropWhile (fun _ => hash_of_isspace) _).symm
  have hdrop := drop_skip isspace line p
  rw [hwords, ← hdrop]
  unfold ltrim
  cases hrest : line.drop (skip isspace line p) with
  | nil =>
      refine .inl ⟨?_, rfl⟩
      rw [charAt_of_drop_nil hrest]
      exact if_pos (.inl rfl)
  | cons c r =>
      have hspace : isspace c = false := test_of_dropWhile_eq_cons (hdrop.symm.trans hrest)
      have hmem : c ∈ line.drop p := by
        apply (List.dropWhile_suffix isspace).subset
        rw [← hdrop, hrest]
        exact List.mem_cons_self
      rw [charAt_of_drop_cons hrest]
      by_cases hc : c = '#'
      · refine .inl ⟨if_pos (.inr hc), ?_⟩
        unfold lineWords
        rw [hc]
        rfl
      · refine .inr ⟨skip isspace line p, ?_, ?_, ?_, ?_⟩
        · exact if_neg (by simp [hnul c hmem, hc])
        · rw [hrest]
        · have hin : inArgument c = true := by
            simp [inArgument, hspace, hnul c hmem, hc]
          rw [hrest, List.takeWhile_cons_of_pos hin]
          exact List.cons_ne_nil _ _
        · rw [hdrop]
          exact fun x hx => hnul x ((List.dropWhile_suffix isspace).subset hx)

/-- The words of a line whose first word is `w`: the line ends behind it, or a comment or
a blank follows. -/
theorem lineWords_single {w : List Char} (hne : w ≠ []) (hw : ∀ c ∈ w, inArgument c = true) :
    lineWords w = [w] := by
  unfold lineWords
  rw [List.takeWhile_eq_self_iff.mpr fun c hc => decide_eq_true (of_inArgument (hw c hc)).2.2]
  exact words_single hne fun c hc => (of_inArgument (hw c hc)).1

theorem lineWords_append_hash {w : List Char} (hne : w ≠ [])
    (hw : ∀ c ∈ w, inArgument c = true) (r : List Char) : lineWords (w ++ '#' :: r) = [w] := by
  unfold lineWords
  rw [List.takeWhile_append_of_pos fun c hc => decide_eq_true (of_inArgument (hw c hc)).2.2,
    List.takeWhile_cons_of_neg (by decide), List.append_nil]
  exact words_single hne fun c hc => (of_inArgument (hw c hc)).1

theorem lineWords_append_blank {w : List Char} (hne : w ≠ [])
    (hw : ∀ c ∈ w, inArgument c = true) {c : Char} (hc : isspace c = true) (r : List Char) :
    lineWords (w ++ c :: r) = w :: lineWords r := by
  unfold lineWords
  rw [List.takeWhile_append_of_pos fun c hc => decide_eq_true (of_inArgument (hw c hc)).2.2,
    List.takeWhile_cons_of_pos (p := fun c => decide (c ≠ '#')) (hash_of_isspace hc)]
  exact words_append_cons hne (fun c hc => (of_inArgument (hw c hc)).1) hc _

/-- What `next_argument` does: the string at the old pointer is the next word, and either
no further one is found, or those behind the new pointer are the others. -/
theorem nextArgument_spec (hnul : ∀ c ∈ line.drop p, c ≠ '\x00')
    (hne : (line.drop p).takeWhile inArgument ≠ []) :
    (ltrim (nextArgument line p).1 (nextArgument line p).2 = none ∧
      lineWords (line.drop p) = [stringAt (nextArgument line p).1 p]) ∨
    ((∀ c ∈ (nextArgument line p).1.drop (nextArgument line p).2, c ≠ '\x00') ∧
      lineWords (line.drop p) = stringAt (nextArgument line p).1 p ::
        lineWords ((nextArgument line p).1.drop (nextArgument line p).2)) := by
  set w := (line.drop p).takeWhile inArgument with hw
  have hword : ∀ c ∈ w, inArgument c = true := fun c hc => List.mem_takeWhile_imp hc
  have hplain : ∀ c ∈ w, c ≠ '\x00' := fun c hc => (of_inArgument (hword c hc)).2.1
  have hsplit : line.drop p = w ++ line.drop (skip inArgument line p) := by
    rw [drop_skip, hw, List.takeWhile_append_dropWhile]
  unfold nextArgument
  cases hrest : line.drop (skip inArgument line p) with
  | nil =>
      rw [hrest, List.append_nil] at hsplit
      have hend := charAt_of_drop_nil hrest
      have hstring : stringAt line p = w := by
        unfold stringAt
        rw [hsplit, List.takeWhile_eq_self_iff]
        simpa using hplain
      rw [if_pos hend, hstring, hsplit]
      exact .inl ⟨ltrim_of_nul hend, lineWords_single hne hword⟩
  | cons c r =>
      rw [hrest] at hsplit
      have hmem : c ∈ line.drop p := by rw [hsplit]; simp
      have hstop : inArgument c = false := by
        apply test_of_dropWhile_eq_cons (s := line.drop p) (r := r)
        rw [← drop_skip, hrest]
      have hstring : stringAt (line.set (skip inArgument line p) '\x00') p = w :=
        stringAt_set hsplit hplain
      rw [charAt_of_drop_cons hrest, if_neg (hnul c hmem)]
      rcases inArgument_eq_false hstop with hspace | hzero | hhash
      · have hne_hash : c ≠ '#' := of_decide_eq_true (hash_of_isspace hspace)
        have hbehind : (line.set (skip inArgument line p) '\x00').drop
            (skip inArgument line p + 1) = r := by
          rw [List.drop_set_of_lt (Nat.lt_add_one _), ← List.tail_drop, hrest]
          rfl
        rw [if_neg hne_hash, hstring, hbehind, hsplit]
        refine .inr ⟨?_, lineWords_append_blank hne hword hspace r⟩
        intro x hx
        apply hnul x
        rw [hsplit]
        exact List.mem_append_right _ (List.mem_cons_of_mem _ hx)
      · exact absurd hzero (hnul c hmem)
      · rw [if_pos hhash, hstring, hsplit, hhash]
        exact .inl ⟨ltrim_of_nul (charAt_set_nul _ _), lineWords_append_hash hne hword r⟩

/-- The inner loop finds the words from the pointer on. -/
theorem lineArguments_eq (line : List Char) (p : Nat) (argv : List (List Char))
    (hnul : ∀ c ∈ line.drop p, c ≠ '\x00') (hne : (line.drop p).takeWhile inArgument ≠ []) :
    lineArguments line p argv = collected argv (lineWords (line.drop p)) := by
  induction line, p, argv using lineArguments.induct with
  | case1 line p argv argument hdash =>
      have hfirst : argument ∈ lineWords (line.drop p) := by
        rcases nextArgument_spec hnul hne with ⟨-, hwords⟩ | ⟨-, hwords⟩
        · rw [hwords]
          exact List.mem_cons_self
        · rw [hwords]
          exact List.mem_cons_self
      rw [lineArguments, if_pos hdash]
      unfold collected
      rw [if_pos (hdash ▸ hfirst)]
  | case2 line p argv argument hdash hlast =>
      have hwords : lineWords (line.drop p) = [argument] := by
        rcases nextArgument_spec hnul hne with ⟨-, hwords⟩ | ⟨hplain, hwords⟩
        · exact hwords
        · rcases ltrim_spec hplain with ⟨-, hnone⟩ | ⟨q, hq, -⟩
          · rw [hwords, hnone]
          · rw [hlast] at hq
            cases hq
      rw [lineArguments, if_neg hdash, hwords]
      unfold collected
      rw [if_neg (by simpa using Ne.symm hdash)]
      split
      · rfl
      · next q hq =>
          rw [hlast] at hq
          cases hq
  | case3 line p argv argument hdash q hnext ih =>
      obtain ⟨hplain, hwords⟩ :
          (∀ c ∈ (nextArgument line p).1.drop (nextArgument line p).2, c ≠ '\x00') ∧
            lineWords (line.drop p) = argument ::
              lineWords ((nextArgument line p).1.drop (nextArgument line p).2) := by
        rcases nextArgument_spec hnul hne with ⟨hnone, -⟩ | h
        · rw [hnext] at hnone
          cases hnone
        · exact h
      rcases ltrim_spec hplain with ⟨hnone, -⟩ | ⟨q', hq', hsame, hstart, hplain'⟩
      · rw [hnext] at hnone
        cases hnone
      · rw [hnext, Option.some.injEq] at hq'
        subst hq'
        rw [lineArguments, if_neg hdash, hwords, hsame, collected_cons hdash,
          ← ih hplain' hstart]
        split
        · next hnone =>
            rw [hnext] at hnone
            cases hnone
        · next q' hq' =>
            rw [hnext, Option.some.injEq] at hq'
            rw [hq']

/-! ## A file -/

theorem readLine_eq (argv : List (List Char)) {line : List Char} (hnul : ∀ c ∈ line, c ≠ '\x00') :
    readLine argv line = collected argv (lineWords line) := by
  unfold readLine
  have hdrop : ∀ c ∈ line.drop 0, c ≠ '\x00' := hnul
  rcases ltrim_spec hdrop with ⟨hnone, hwords⟩ | ⟨q, hq, hwords, hne, hq'⟩
  · rw [hnone, ← List.drop_zero (l := line), hwords, collected_nil]
  · rw [hq, ← List.drop_zero (l := line), hwords]
    exact lineArguments_eq line q argv hq' hne

theorem foldlM_readLine (argv : List (List Char)) (lines : List (List Char))
    (hnul : ∀ line ∈ lines, ∀ c ∈ line, c ≠ '\x00') :
    lines.foldlM readLine argv = collected argv (lines.flatMap lineWords) := by
  induction lines generalizing argv with
  | nil => exact (collected_nil argv).symm
  | cons line lines ih =>
      rw [List.foldlM_cons, List.flatMap_cons, collected_append,
        readLine_eq argv (hnul line List.mem_cons_self)]
      congr 1
      funext argv
      exact ih argv fun l hl => hnul l (List.mem_cons_of_mem line hl)

/-- `parse_args_file` finds the words of the file, unless one of them is `--`. -/
theorem parseArgsFile_eq {content : List Char} (hnul : ∀ c ∈ content, c ≠ '\x00') :
    parseArgsFile (some content) = collected [] (fileWords content) := by
  apply foldlM_readLine
  intro line hline c hc
  exact hnul c (mem_of_mem_getlines hline hc)

/-! ## In place of an argument -/

/-- An argument that `tw_opt_parse` passes to `match_opt`. -/
def IsOptArg (w : List Char) : Prop := strncmpEq w ['-', '-'] 2 = true ∧ w ≠ ['-', '-']

section

variable {D : Type} (c : OptSetup D) {nested : Option (Nested D)} {groups : List (List TwOptdef)}
  {ws : List (List Char)}

theorem parseArguments_cons {w : List Char} (hw : IsOptArg w) (rest : List (List Char))
    (vars : OptVars D) : parseArguments c nested groups (w :: rest) vars =
      matchOpt c nested groups w vars >>= parseArguments c nested groups rest := by
  rw [parseArguments, hw.1, if_neg (by decide), if_neg hw.2]

/-- Arguments that come first are applied one after the other. -/
theorem parseArguments_append (hws : ∀ w ∈ ws, IsOptArg w) (rest : List (List Char))
    (vars : OptVars D) : parseArguments c nested groups (ws ++ rest) vars =
      ws.foldlM (fun vars w => matchOpt c nested groups w vars) vars >>=
        parseArguments c nested groups rest := by
  induction ws generalizing vars with
  | nil => rfl
  | cons w ws ih =>
      rw [List.cons_append, parseArguments_cons c (hws w List.mem_cons_self), List.foldlM_cons,
        bind_assoc]
      congr 1
      funext vars
      exact ih (fun w hw => hws w (List.mem_cons_of_mem _ hw)) vars

/-- Whether a file may be read matters to no other option. -/
theorem matchOpt_of_ne_argsfile {w : List Char}
    (hw : ∀ d, selectOpt groups w = some d → d.type ≠ .argsfile) (nested' : Option (Nested D))
    (vars : OptVars D) : matchOpt c nested groups w vars = matchOpt c nested' groups w vars := by
  unfold matchOpt
  cases hd : selectOpt groups w with
  | none => rfl
  | some d =>
      simp only
      unfold applyOpt
      rw [if_neg (hw d hd), if_neg (hw d hd)]

theorem foldlM_matchOpt
    (hws : ∀ w ∈ ws, ∀ d, selectOpt groups w = some d → d.type ≠ .argsfile)
    (nested' : Option (Nested D)) (vars : OptVars D) :
    ws.foldlM (fun vars w => matchOpt c nested groups w vars) vars =
      ws.foldlM (fun vars w => matchOpt c nested' groups w vars) vars := by
  induction ws generalizing vars with
  | nil => rfl
  | cons w ws ih =>
      rw [List.foldlM_cons, List.foldlM_cons,
        matchOpt_of_ne_argsfile c (hws w List.mem_cons_self) nested']
      congr 1
      funext vars
      exact ih (fun w hw => hws w (List.mem_cons_of_mem _ hw)) vars

/-- An argument that names a file applies the words of the file. -/
theorem matchOpt_file {optGroups : OptGroups} {w file content : List Char} {d : TwOptdef}
    (hgroups : allGroups optGroups = .ok groups) (hsel : selectOpt groups w = some d)
    (htype : d.type = .argsfile) (hvalue : argValue (w.drop 2) = some file)
    (hfile : c.fopen (some file) = some content) (hread : parseArgsFile (some content) = .ok ws)
    (hws : ∀ w ∈ ws, IsOptArg w) (vars : OptVars D) :
    matchOpt c (some (twOptParseAt c none optGroups)) groups w vars =
      ws.foldlM (fun vars w => matchOpt c none groups w vars) vars := by
  have hparse : twOptParseAt c none optGroups ws vars =
      ws.foldlM (fun vars w => matchOpt c none groups w vars) vars >>=
        parseArguments c none groups [] := by
    have h : parseArguments c none groups (ws ++ []) vars = _ :=
      parseArguments_append c hws [] vars
    rw [List.append_nil] at h
    unfold twOptParseAt
    rw [hgroups]
    exact h
  have happ : matchOpt c (some (twOptParseAt c none optGroups)) groups w vars =
      applyArgsFile c (some (twOptParseAt c none optGroups)) (some file) vars := by
    unfold matchOpt
    simp only [hsel, hvalue]
    unfold applyOpt
    exact if_pos htype
  rw [happ]
  unfold applyArgsFile
  simp only [hfile, hread]
  generalize hfold : ws.foldlM (fun vars w => matchOpt c none groups w vars) vars = r at *
  change (twOptParseAt c none optGroups ws vars >>= _) = r
  rw [hparse]
  cases r <;> rfl

end

theorem argsFile_inline {D : Type} (c : OptSetup D) (content : List Char)
    (hnul : ∀ ch ∈ content, ch ≠ '\x00') :
    parseArgsFile (some content) = collected [] (fileWords content) ∧
      ∀ (optGroups : OptGroups) (name file : List Char) (rest : List (List Char))
        (vars : OptVars D) (d : TwOptdef), c.fopen (some file) = some content → '=' ∉ name →
        selectOpt (optGroups.tables ++ [basic]) (valueArg name file) = some d →
        d.type = .argsfile → (∀ w ∈ fileWords content, IsOptArg w ∧
          ∀ e, selectOpt (optGroups.tables ++ [basic]) w = some e → e.type ≠ .argsfile) →
        twOptParse c optGroups (valueArg name file :: rest) vars =
          twOptParse c optGroups (fileWords content ++ rest) vars := by
  refine ⟨parseArgsFile_eq hnul, ?_⟩
  intro optGroups name file rest vars d hfile hname hsel htype hws
  have hargs : ∀ w ∈ fileWords content, IsOptArg w := fun w hw => (hws w hw).1
  have hread : parseArgsFile (some content) = .ok (fileWords content) := by
    rw [parseArgsFile_eq hnul]
    exact if_neg fun h => (hargs _ h).2 rfl
  unfold twOptParse
  generalize hnested : some (twOptParseAt c none optGroups) = nested
  unfold twOptParseAt
  cases hgroups : allGroups optGroups with
  | error stop => rfl
  | ok groups =>
      have hall : groups = optGroups.tables ++ [basic] := by
        unfold allGroups at hgroups
        split at hgroups
        · cases hgroups
        · injection hgroups with h
          exact h.symm
      have harg : IsOptArg (valueArg name file) := by
        refine ⟨rfl, ?_⟩
        intro h
        unfold valueArg bareArg at h
        simp at h
      subst hall
      change parseArguments c nested _ _ vars = parseArguments c nested _ _ vars
      rw [parseArguments_cons c harg, parseArguments_append c hargs, ← hnested,
        matchOpt_file c hgroups hsel htype (argValue_valueArg hname) hfile hread hargs,
        foldlM_matchOpt c fun w hw => (hws w hw).2]

/-- A text without NUL, by evaluation. -/
theorem noNul_of_all {s : List Char} (h : s.all (· != '\x00') = true) : ∀ c ∈ s, c ≠ '\x00' :=
  fun c hc => bne_iff_ne.mp (List.all_eq_true.mp h c hc)

/-- A file with one word and a comment. -/
def nkpFile : List Char := ['-', '-', 'n', 'k', 'p', '=', '3', ' ', '#', 'x', '\n']

/-- A program with the option `nkp` that can read this file. -/
def fileSetup : OptSetup Unit := ⟨fun s => ((), s), fun _ => some nkpFile, fun _ => 0⟩

def fileOptions : OptGroups :=
  twOptAdd .start [⟨.uint, some ['n', 'k', 'p'], 1⟩, ⟨.argsfile, some ['a', 'r', 'g', 's'], 2⟩]

theorem argsFile_inline_nkp :
    parseArgsFile (some nkpFile) = collected [] (fileWords nkpFile) ∧
      twOptParse fileSetup fileOptions [valueArg ['a', 'r', 'g', 's'] ['f'], ['x']]
          (fun _ => .uint 0) =
        twOptParse fileSetup fileOptions (fileWords nkpFile ++ [['x']]) (fun _ => .uint 0) := by
  have h := argsFile_inline fileSetup nkpFile (noNul_of_all rfl)
  refine ⟨h.1, h.2 fileOptions _ _ _ _ ⟨.argsfile, some ['a', 'r', 'g', 's'], 2⟩ rfl
    (by decide) (by decide) rfl ?_⟩
  have hwords : fileWords nkpFile = [['-', '-', 'n', 'k', 'p', '=', '3']] := by decide
  intro w hw
  rw [hwords, List.mem_singleton] at hw
  subst hw
  have hsel : selectOpt (fileOptions.tables ++ [basic]) ['-', '-', 'n', 'k', 'p', '=', '3'] =
      some ⟨.uint, some ['n', 'k', 'p'], 1⟩ := by decide
  refine ⟨⟨by decide, by decide⟩, ?_⟩
  intro e he
  rw [hsel, Option.some.injEq] at he
  rw [← he]
  decide

/-- A file with the word `--` is refused. -/
theorem dashDash_refused :
    ¬ ∀ content : List Char, (∀ ch ∈ content, ch ≠ '\x00') →
      parseArgsFile (some content) = .ok (fileWords content) := by
  intro h
  have hnul : ∀ ch ∈ ['-', '-'], ch ≠ '\x00' := noNul_of_all rfl
  have hread := h ['-', '-'] hnul
  rw [parseArgsFile_eq hnul] at hread
  have hstop : collected [] (fileWords ['-', '-']) = .error .dashDash := by decide
  rw [hstop] at hread
  cases hread

end Ross

import Mathlib.Data.List.ReduceOption
import Ross.Core.OptGroups

/-!
# The bounds of the option tables

`tw_opt_add` terminates `opt_groups` with `NULL` without a test, and `tw_opt_parse` adds its own
table and a `NULL` to `all_groups` behind the only test.  So nine tables are one too many for
`all_groups`, and ten are one too many for `opt_groups`.
-/

namespace Ross

/-- The array holds the list, `NULL` behind it. -/
def HoldsGroups (a : Nat → Option (List TwOptdef)) (l : List (List TwOptdef)) : Prop :=
  ∀ i, a i = l[i]?

namespace HoldsGroups

variable {a : Nat → Option (List TwOptdef)} {l : List (List TwOptdef)}

/-- A table and a `NULL` are written behind the list. -/
theorem append (h : HoldsGroups a l) (table : List TwOptdef) :
    HoldsGroups (Function.update (Function.update a l.length (some table)) (l.length + 1) none)
      (l ++ [table]) := by
  intro i
  by_cases hnext : i = l.length + 1
  · rw [hnext, Function.update_self, List.getElem?_eq_none]
    rw [List.length_append, List.length_singleton]
  · rw [Function.update_of_ne hnext]
    by_cases hlast : i = l.length
    · rw [hlast, Function.update_self, List.getElem?_concat_length]
    · rw [Function.update_of_ne hlast, h i]
      by_cases hi : i < l.length
      · rw [List.getElem?_append_left hi]
      · rw [List.getElem?_eq_none (by omega), List.getElem?_eq_none]
        rw [List.length_append, List.length_singleton]
        omega

/-- A table is written behind the list. -/
theorem concat (h : HoldsGroups a l) (table : List TwOptdef) :
    HoldsGroups (Function.update a l.length (some table)) (l ++ [table]) := by
  have hnull : Function.update a l.length (some table) (l.length + 1) = none := by
    rw [Function.update_of_ne (Nat.succ_ne_self _), h, List.getElem?_eq_none (Nat.le_succ _)]
  have happ := h.append table
  rw [← hnull, Function.update_eq_self] at happ
  exact happ

end HoldsGroups

theorem storeGroup_ok {i : Nat} (h : i < 10) (a : Nat → Option (List TwOptdef))
    (options : Option (List TwOptdef)) :
    storeGroup a i options = .ok (Function.update a i options) := if_pos h

theorem storeGroup_error {i : Nat} (h : 10 ≤ i) (a : Nat → Option (List TwOptdef))
    (options : Option (List TwOptdef)) : storeGroup a i options = .error .badAccess :=
  if_neg (Nat.not_lt_of_le h)

/-- Nine elements have a next one. -/
theorem storeLast_ok {i : Nat} (h : i < 9) (a : Nat → Option (List TwOptdef))
    (table : List TwOptdef) :
    storeLast a i table =
      .ok (Function.update (Function.update a i (some table)) (i + 1) none) := by
  unfold storeLast
  rw [storeGroup_ok (by omega)]
  exact storeGroup_ok (by omega) _ _

theorem storeLast_error {i : Nat} (h : 9 ≤ i) (a : Nat → Option (List TwOptdef))
    (table : List TwOptdef) : storeLast a i table = .error .badAccess := by
  unfold storeLast
  by_cases hi : i < 10
  · rw [storeGroup_ok hi]
    exact storeGroup_error (by omega) _ _
  · rw [storeGroup_error (by omega)]
    rfl

theorem addedTables_empty {table : List TwOptdef} (h : isEmpty table = true)
    (tables : List (Option (List TwOptdef))) :
    addedTables (some table :: tables) = addedTables tables := by
  unfold addedTables
  rw [List.reduceOption_cons_of_some, List.filter_cons_of_neg (by simp [h])]

theorem addedTables_table {table : List TwOptdef} (h : isEmpty table = false)
    (tables : List (Option (List TwOptdef))) :
    addedTables (some table :: tables) = table :: addedTables tables := by
  unfold addedTables
  rw [List.reduceOption_cons_of_some, List.filter_cons_of_pos (by simp [h])]

namespace OptArrays

variable {s : OptArrays} {l : List (List TwOptdef)}

/-! ## `tw_opt_add` -/

/-- The tables of `opt_groups`, and nothing in `all_groups`. -/
structure Added (s : OptArrays) (l : List (List TwOptdef)) : Prop where
  optGroups : HoldsGroups s.optGroups l
  optIndex : s.optIndex = l.length
  allGroups : HoldsGroups s.allGroups []
  nonempty : ∀ table ∈ l, isEmpty table = false

theorem added_start : Added start [] := ⟨fun _ => rfl, rfl, fun _ => rfl, nofun⟩

theorem twOptAdd_empty {table : List TwOptdef} (h : isEmpty table = true) :
    s.twOptAdd (some table) = .ok s := by
  unfold twOptAdd
  exact if_pos h

theorem twOptAdd_table {table : List TwOptdef} (h : isEmpty table = false) :
    s.twOptAdd (some table) = do
      let optGroups ← storeLast s.optGroups s.optIndex table
      return { s with optGroups := optGroups, optIndex := s.optIndex + 1 } := by
  unfold twOptAdd
  exact if_neg (Bool.eq_false_iff.mp h)

/-- One of nine tables. -/
theorem Added.add (h : Added s l) (hl : l.length < 9) {table : List TwOptdef}
    (htable : isEmpty table = false) :
    ∃ s', s.twOptAdd (some table) = .ok s' ∧ Added s' (l ++ [table]) := by
  rw [twOptAdd_table htable, h.optIndex, storeLast_ok hl]
  refine ⟨_, rfl, h.optGroups.append table, ?_, h.allGroups, ?_⟩
  · rw [List.length_append, List.length_singleton]
  · intro t ht
    rcases List.mem_append.mp ht with hold | hnew
    · exact h.nonempty t hold
    · rw [List.mem_singleton.mp hnew]
      exact htable

/-- The tenth table. -/
theorem Added.add_error (h : Added s l) (hl : l.length = 9) {table : List TwOptdef}
    (htable : isEmpty table = false) : s.twOptAdd (some table) = .error .badAccess := by
  rw [twOptAdd_table htable, h.optIndex, storeLast_error (by omega)]
  rfl

/-- The calls of `tw_opt_add` of a run. -/
theorem adds (h : Added s l) (hl : l.length ≤ 9) (tables : List (Option (List TwOptdef))) :
    (l.length + (addedTables tables).length ≤ 9 →
      ∃ s', tables.foldlM twOptAdd s = .ok s' ∧ Added s' (l ++ addedTables tables)) ∧
    (9 < l.length + (addedTables tables).length →
      tables.foldlM twOptAdd s = .error .badAccess) := by
  induction tables generalizing s l with
  | nil =>
      refine ⟨fun _ => ⟨s, rfl, ?_⟩, fun hlong => ?_⟩
      · rw [show addedTables [] = [] from rfl, List.append_nil]
        exact h
      · rw [show addedTables [] = [] from rfl, List.length_nil] at hlong
        omega
  | cons options tables ih =>
      rw [List.foldlM_cons]
      -- A call that adds nothing is followed by the other calls from the same state.
      have skip (hadd : s.twOptAdd options = .ok s)
          (hsame : addedTables (options :: tables) = addedTables tables) :
          (l.length + (addedTables (options :: tables)).length ≤ 9 →
            ∃ s', (s.twOptAdd options >>= fun s => tables.foldlM twOptAdd s) = .ok s' ∧
              Added s' (l ++ addedTables (options :: tables))) ∧
          (9 < l.length + (addedTables (options :: tables)).length →
            (s.twOptAdd options >>= fun s => tables.foldlM twOptAdd s) = .error .badAccess) := by
        rw [hadd, hsame]
        exact ih h hl
      cases options with
      | none => exact skip rfl rfl
      | some table =>
          cases htable : isEmpty table with
          | true => exact skip (twOptAdd_empty htable) (addedTables_empty htable tables)
          | false =>
              rw [addedTables_table htable, List.length_cons]
              by_cases hfull : l.length = 9
              · rw [h.add_error hfull htable]
                exact ⟨fun hshort => by omega, fun _ => rfl⟩
              · obtain ⟨s', hs', hadded⟩ := h.add (by omega) htable
                have hlen : (l ++ [table]).length = l.length + 1 := by
                  rw [List.length_append, List.length_singleton]
                obtain ⟨hrest, hrest'⟩ := ih hadded (by omega)
                rw [hlen, List.append_assoc, List.singleton_append] at hrest
                rw [hlen] at hrest'
                rw [hs']
                exact ⟨fun hshort => hrest (by omega), fun hlong => hrest' (by omega)⟩

/-! ## `tw_opt_parse` -/

/-- The loop of `tw_opt_parse` copies the tables, in order. -/
theorem fillGroups_ok {n i : Nat} (hn : i + n = 10) (hl : l.length ≤ 9) (hi : i ≤ l.length)
    (hopt : HoldsGroups s.optGroups l) (hne : ∀ table ∈ l, isEmpty table = false)
    (hall : HoldsGroups s.allGroups (l.take i)) :
    ∃ s', fillGroups n i s = .ok (l.length, s') ∧ HoldsGroups s'.allGroups l := by
  induction n generalizing i s with
  | zero => omega
  | succ n ih =>
      unfold fillGroups
      by_cases hend : i = l.length
      · rw [hopt, hend, List.getElem?_eq_none le_rfl]
        refine ⟨s, rfl, ?_⟩
        rw [hend, List.take_length] at hall
        exact hall
      · have hlt : i < l.length := by omega
        rw [hopt, List.getElem?_eq_getElem hlt]
        dsimp only
        have hsize : ¬ groupsSize ≤ i := by
          unfold groupsSize
          omega
        have htake : (l.take i).length = i := List.length_take_of_le hi
        have hnext := hall.concat l[i]
        rw [htake, ← List.take_succ_eq_append_getElem hlt] at hnext
        rw [hne _ (List.getElem_mem hlt), if_neg Bool.false_ne_true, if_neg hsize,
          storeGroup_ok (by omega)]
        exact ih (by omega) hlt hopt hnext

/-- `all_groups` has room for eight tables beside its own. -/
theorem twOptParse_added (h : Added s l) :
    (l.length ≤ 8 → ∃ s', s.twOptParse = .ok s' ∧ HoldsGroups s'.allGroups (l ++ [basic])) ∧
    (l.length = 9 → s.twOptParse = .error .badAccess) := by
  have hfill : l.length ≤ 9 → ∃ s', fillGroups groupsSize 0 s = .ok (l.length, s') ∧
      HoldsGroups s'.allGroups l := fun hl =>
    fillGroups_ok rfl hl (Nat.zero_le _) h.optGroups h.nonempty h.allGroups
  unfold twOptParse
  refine ⟨fun hl => ?_, fun hl => ?_⟩
  · obtain ⟨s', hs', hall⟩ := hfill (by omega)
    have hlast := storeLast_ok (by omega : l.length < 9) s'.allGroups basic
    refine ⟨{ s' with allGroups := _ }, ?_, hall.append basic⟩
    rw [hs']
    show (storeLast s'.allGroups l.length basic >>= fun groups =>
      Except.ok { s' with allGroups := groups }) = _
    rw [hlast]
    rfl
  · obtain ⟨s', hs', hall⟩ := hfill (by omega)
    rw [hs']
    show (storeLast s'.allGroups l.length basic >>= fun groups =>
      Except.ok { s' with allGroups := groups }) = _
    rw [storeLast_error (by omega)]
    rfl

/-- What a run leaves in `all_groups`, if it stays inside of the arrays. -/
theorem run_added (tables : List (Option (List TwOptdef))) :
    ((addedTables tables).length ≤ 8 → ∃ s, run tables = .ok s ∧
      HoldsGroups s.allGroups (addedTables tables ++ [basic])) ∧
    (8 < (addedTables tables).length → run tables = .error .badAccess) := by
  obtain ⟨hok, hbad⟩ := adds added_start (Nat.zero_le _) tables
  rw [List.length_nil, Nat.zero_add, List.nil_append] at hok
  rw [List.length_nil, Nat.zero_add] at hbad
  unfold run
  refine ⟨fun hl => ?_, fun hl => ?_⟩
  · obtain ⟨s, hs, hadded⟩ := hok (by omega)
    rw [hs]
    exact (twOptParse_added hadded).1 hl
  · by_cases hnine : (addedTables tables).length = 9
    · obtain ⟨s, hs, hadded⟩ := hok (by omega)
      rw [hs]
      exact (twOptParse_added hadded).2 hnine
    · rw [hbad (by omega)]
      rfl

/-- A run stays inside of the arrays, or stops with the message, as long as it adds eight tables at
most. -/
theorem run_stays_iff (tables : List (Option (List TwOptdef))) :
    (run tables = .error .tooManyGroups ∨ ∃ s, run tables = .ok s) ↔
      (addedTables tables).length ≤ 8 := by
  obtain ⟨hok, hbad⟩ := run_added tables
  constructor
  · intro hstay
    by_contra hl
    rw [hbad (by omega)] at hstay
    rcases hstay with hstop | ⟨s, hs⟩
    · cases hstop
    · cases hs
  · intro hl
    obtain ⟨s, hs, -⟩ := hok hl
    exact .inr ⟨s, hs⟩

/-- With nine tables, the `NULL` behind `basic` is written to the element after the last one. -/
theorem run_nine_tables :
    run (List.replicate 9 (some [⟨.flag, some ['a'], 0⟩])) ≠ .error .tooManyGroups ∧
      ¬ ∃ s, run (List.replicate 9 (some [⟨.flag, some ['a'], 0⟩])) = .ok s := by
  have hbad : run (List.replicate 9 (some [⟨.flag, some ['a'], 0⟩])) = .error .badAccess := rfl
  rw [hbad]
  exact ⟨nofun, nofun⟩

end OptArrays

/-! ## The list that the parser reads

The parser is modelled on a list of tables; here it is what `all_groups` holds after the calls
of `tw_opt_add`.
-/

/-- All tables of the program are added, for none is empty. -/
theorem addedTables_map (optGroups : OptGroups) :
    addedTables (optGroups.tables.map some) = optGroups.tables := by
  have hmap : (optGroups.tables.map some).reduceOption = optGroups.tables := by
    unfold List.reduceOption
    rw [List.filterMap_map]
    exact List.filterMap_some
  unfold addedTables
  rw [hmap, List.filter_eq_self]
  intro table htable
  rw [optGroups.nonempty table htable]
  rfl

/-- The calls of `tw_opt_add` refine the list: where it gives the groups `all_groups` holds them,
and where it stops they do. -/
theorem run_allGroups (optGroups : OptGroups) :
    (∀ groups, allGroups optGroups = .ok groups →
      ∃ s, OptArrays.run (optGroups.tables.map some) = .ok s ∧ HoldsGroups s.allGroups groups) ∧
    (∀ stop, allGroups optGroups = .error stop →
      OptArrays.run (optGroups.tables.map some) = .error stop) := by
  obtain ⟨hok, hbad⟩ := OptArrays.run_added (optGroups.tables.map some)
  rw [addedTables_map] at hok hbad
  unfold allGroups
  by_cases hl : 8 < optGroups.tables.length
  · rw [if_pos hl]
    refine ⟨nofun, fun stop hstop => ?_⟩
    rw [hbad hl]
    exact congrArg _ (Except.error.inj hstop)
  · rw [if_neg hl]
    refine ⟨fun groups hgroups => ?_, nofun⟩
    rw [← Except.ok.inj hgroups]
    exact hok (by omega)

end Ross

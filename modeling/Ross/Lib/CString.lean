import Mathlib.Algebra.Ring.Nat
import Mathlib.Data.List.TakeWhile

/-!
# Strings of C

A string is the list of its characters, without the null character at its end.  The
functions are those of the standard library in the "C" locale.
-/

namespace CString

/-- `isspace`. -/
def isspace (c : Char) : Bool :=
  c = ' ' || c = '\t' || c = '\n' || c = '\x0b' || c = '\x0c' || c = '\r'

/-! ## Pointers into a string -/

/-- `*p`. -/
def charAt (s : List Char) (p : Nat) : Char := s.getD p '\x00'

/-- The string at `p`. -/
def stringAt (s : List Char) (p : Nat) : List Char := (s.drop p).takeWhile fun c => c ≠ '\x00'

/-- `while (test(*p)) p++`. -/
def skip (test : Char → Bool) (s : List Char) (p : Nat) : Nat :=
  p + ((s.drop p).takeWhile test).length

theorem charAt_of_length_le {s : List Char} {p : Nat} (h : s.length ≤ p) :
    charAt s p = '\x00' := by
  unfold charAt
  rw [List.getD_eq_getElem?_getD, List.getElem?_eq_none h]
  rfl

theorem charAt_set_nul (s : List Char) (p : Nat) : charAt (s.set p '\x00') p = '\x00' := by
  by_cases h : p < s.length
  · unfold charAt
    rw [List.getD_eq_getElem?_getD, List.getElem?_set_self h]
    rfl
  · exact charAt_of_length_le (by rw [List.length_set]; omega)

theorem le_skip (test : Char → Bool) (s : List Char) (p : Nat) : p ≤ skip test s p :=
  Nat.le_add_right _ _

theorem drop_eq_charAt_cons {s : List Char} {p : Nat} (h : p < s.length) :
    s.drop p = charAt s p :: s.drop (p + 1) := by
  unfold charAt
  rw [List.drop_eq_getElem_cons h, List.getD_eq_getElem?_getD, List.getElem?_eq_getElem h]
  rfl

/-- The loop stops where its test fails. -/
theorem skip_eq_self {test : Char → Bool} {s : List Char} {p : Nat}
    (hp : test (charAt s p) = false) : skip test s p = p := by
  unfold skip
  by_cases h : p < s.length
  · rw [drop_eq_charAt_cons h, List.takeWhile_cons_of_neg (by rw [hp]; decide)]
    rfl
  · rw [List.drop_eq_nil_of_le (by omega)]
    rfl

theorem drop_skip (test : Char → Bool) (s : List Char) (p : Nat) :
    s.drop (skip test s p) = (s.drop p).dropWhile test := by
  have hsplit := List.takeWhile_append_dropWhile (p := test) (l := s.drop p)
  have hdrop := congrArg (List.drop ((s.drop p).takeWhile test).length) hsplit
  rw [List.drop_left] at hdrop
  unfold skip
  rw [← List.drop_drop]
  exact hdrop.symm

/-- A scan stops at a character that fails the test. -/
theorem test_of_dropWhile_eq_cons {test : Char → Bool} {s r : List Char} {c : Char}
    (h : s.dropWhile test = c :: r) : test c = false := by
  have hnot := List.dropWhile_get_zero_not test s (by rw [h]; exact Nat.succ_pos _)
  simpa [h] using hnot

theorem charAt_of_drop_nil {s : List Char} {p : Nat} (h : s.drop p = []) :
    charAt s p = '\x00' := charAt_of_length_le (List.drop_eq_nil_iff.mp h)

theorem charAt_of_drop_cons {s : List Char} {p : Nat} {c : Char} {r : List Char}
    (h : s.drop p = c :: r) : charAt s p = c := by
  have hlt : p < s.length := by
    by_contra hle
    rw [List.drop_eq_nil_of_le (by omega)] at h
    cases h
  rw [drop_eq_charAt_cons hlt] at h
  injection h

/-- A null character that is stored behind a word ends the string there. -/
theorem stringAt_set {s w r : List Char} {p : Nat} {c : Char} (h : s.drop p = w ++ c :: r)
    (hw : ∀ x ∈ w, x ≠ '\x00') : stringAt (s.set (p + w.length) '\x00') p = w := by
  unfold stringAt
  rw [List.drop_set, if_neg (by omega), h, Nat.add_sub_cancel_left,
    List.set_append_right _ _ le_rfl, Nat.sub_self, List.set_cons_zero,
    List.takeWhile_append_of_pos (by simpa using hw),
    List.takeWhile_cons_of_neg (by decide), List.append_nil]

/-! ## Functions of the library -/

/-- `strncmp(a, b, n) == 0`. -/
def strncmpEq (a b : List Char) (n : Nat) : Bool := a.take n = b.take n

/-- A sign, or none, and the rest. -/
def splitSign (s : List Char) : List Char × List Char :=
  if s.head? = some '+' ∨ s.head? = some '-' then (s.take 1, s.tail) else ([], s)

/-- The value that `strtoul` makes of a sign and digits: `ULONG_MAX` if the type cannot
hold it, and else negated by a minus sign. -/
def signedValue (sign digits : List Char) : BitVec 64 :=
  if 2 ^ 64 ≤ Nat.ofDigitChars 10 digits 0 then BitVec.allOnes 64
  else if sign = ['-'] then -BitVec.ofNat 64 (Nat.ofDigitChars 10 digits 0)
  else BitVec.ofNat 64 (Nat.ofDigitChars 10 digits 0)

/-- `strtoul` with the base 10: the value, and the rest of the string at `end`. -/
def strtoul (s : List Char) : BitVec 64 × List Char :=
  let t := splitSign (s.dropWhile isspace)
  let digits := t.2.takeWhile Char.isDigit
  if digits = [] then (0, s) else (signedValue t.1 digits, t.2.dropWhile Char.isDigit)

/-- The lines that `getline` reads one after the other, each with its newline. -/
def getlines : List Char → List (List Char)
  | [] => []
  | c :: s =>
      if c = '\n' then [c] :: getlines s
      else
        match getlines s with
        | [] => [[c]]
        | l :: ls => (c :: l) :: ls

/-- The words of a text, which blanks separate. -/
def words (s : List Char) : List (List Char) := (s.splitOnP isspace).filter (· ≠ [])

theorem mem_of_mem_getlines {s line : List Char} (hline : line ∈ getlines s) {c : Char}
    (hc : c ∈ line) : c ∈ s := by
  induction s generalizing line with
  | nil => cases hline
  | cons d s ih =>
      unfold getlines at hline
      split at hline
      · rcases List.mem_cons.mp hline with rfl | hrest
        · rw [List.mem_singleton.mp hc]
          exact List.mem_cons_self
        · exact List.mem_cons_of_mem d (ih hrest hc)
      · split at hline
        · rw [List.mem_singleton.mp hline, List.mem_singleton] at hc
          rw [hc]
          exact List.mem_cons_self
        · next l ls hls =>
            rcases List.mem_cons.mp hline with rfl | hrest
            · rcases List.mem_cons.mp hc with rfl | hl
              · exact List.mem_cons_self
              · exact List.mem_cons_of_mem d (ih (by rw [hls]; exact List.mem_cons_self) hl)
            · exact List.mem_cons_of_mem d
                (ih (by rw [hls]; exact List.mem_cons_of_mem l hrest) hc)

theorem words_cons_of_isspace {c : Char} (s : List Char) (h : isspace c = true) :
    words (c :: s) = words s := by
  unfold words
  rw [List.splitOnP_cons_eq_if_modifyHead, if_pos h]
  rfl

/-- The blanks at the start of a text can be dropped before its end is. -/
theorem words_takeWhile_dropWhile {stop : Char → Bool}
    (hstop : ∀ c, isspace c = true → stop c = true) (s : List Char) :
    words ((s.dropWhile isspace).takeWhile stop) = words (s.takeWhile stop) := by
  induction s with
  | nil => rfl
  | cons c s ih =>
      by_cases h : isspace c = true
      · rw [List.dropWhile_cons_of_pos h, ih, List.takeWhile_cons_of_pos (hstop c h),
          words_cons_of_isspace _ h]
      · rw [List.dropWhile_cons_of_neg h]

/-- A word is the only one of itself. -/
theorem words_single {w : List Char} (hne : w ≠ []) (hw : ∀ c ∈ w, isspace c = false) :
    words w = [w] := by
  unfold words
  rw [List.splitOnP_eq_singleton hw]
  exact List.filter_cons_of_pos (decide_eq_true hne)

/-- A word ends at the first blank. -/
theorem words_append_cons {w : List Char} (hne : w ≠ []) (hw : ∀ c ∈ w, isspace c = false)
    {c : Char} (hc : isspace c = true) (s : List Char) : words (w ++ c :: s) = w :: words s := by
  unfold words
  rw [List.splitOnP_append_cons_of_forall_mem hw c hc]
  exact List.filter_cons_of_pos (decide_eq_true hne)

/-! ## Numbers -/

/-- A text of decimal digits. -/
def Numeral (s : List Char) : Prop := s ≠ [] ∧ ∀ c ∈ s, c.isDigit = true

instance (s : List Char) : Decidable (Numeral s) :=
  decidable_of_iff (s ≠ [] ∧ s.all Char.isDigit = true) (by rw [Numeral, List.all_eq_true])

/-- Blanks, a sign or none, and a numeral: what `strtoul` reads to the end. -/
structure SignedNumeral (s blanks sign digits : List Char) : Prop where
  text : s = blanks ++ (sign ++ digits)
  blanks : ∀ c ∈ blanks, isspace c = true
  sign : sign = [] ∨ sign = ['+'] ∨ sign = ['-']
  digits : Numeral digits

theorem isspace_eq_false_of_isDigit {c : Char} (h : c.isDigit = true) : isspace c = false := by
  by_contra hc
  unfold isspace at hc
  simp only [Bool.or_eq_true, decide_eq_true_eq, Bool.not_eq_false] at hc
  rcases hc with ((((rfl | rfl) | rfl) | rfl) | rfl) | rfl <;> exact absurd h (by decide)

theorem Numeral.dropWhile_append {digits : List Char} (h : Numeral digits) {sign : List Char}
    (hs : ∀ c ∈ sign, isspace c = false) :
    (sign ++ digits).dropWhile isspace = sign ++ digits := by
  obtain ⟨c, s, hc⟩ := List.exists_cons_of_ne_nil (l := sign ++ digits) (by simp [h.1])
  have hmem : c ∈ sign ++ digits := by
    rw [hc]
    exact List.mem_cons_self
  have hspace : isspace c = false := by
    rcases List.mem_append.mp hmem with hsign | hdigit
    · exact hs c hsign
    · exact isspace_eq_false_of_isDigit (h.2 c hdigit)
  rw [hc, List.dropWhile_cons_of_neg (by rw [hspace]; decide)]

theorem splitSign_append {sign digits : List Char}
    (hs : sign = [] ∨ sign = ['+'] ∨ sign = ['-']) (h : Numeral digits) :
    splitSign (sign ++ digits) = (sign, digits) := by
  unfold splitSign
  rcases hs with rfl | rfl | rfl
  · obtain ⟨c, s, rfl⟩ := List.exists_cons_of_ne_nil h.1
    refine if_neg fun hc => ?_
    have hdigit := h.2 c List.mem_cons_self
    rw [List.nil_append, List.head?_cons, Option.some.injEq, Option.some.injEq] at hc
    rcases hc with rfl | rfl <;> exact absurd hdigit (by decide)
  · exact if_pos (.inl rfl)
  · exact if_pos (.inr rfl)

/-- `strtoul` reads blanks, a sign and a numeral to the end. -/
theorem strtoul_signedNumeral {s blanks sign digits : List Char}
    (h : SignedNumeral s blanks sign digits) : strtoul s = (signedValue sign digits, []) := by
  have hsign : ∀ c ∈ sign, isspace c = false := by
    intro c hc
    rcases h.sign with rfl | rfl | rfl
    · cases hc
    · rw [List.mem_singleton.mp hc]
      rfl
    · rw [List.mem_singleton.mp hc]
      rfl
  have ht : splitSign (s.dropWhile isspace) = (sign, digits) := by
    rw [h.text, List.dropWhile_append_of_pos h.blanks, h.digits.dropWhile_append hsign,
      splitSign_append h.sign h.digits]
  unfold strtoul
  simp only [ht]
  rw [List.takeWhile_eq_self_iff.mpr h.digits.2, if_neg h.digits.1,
    List.dropWhile_eq_nil_iff.mpr h.digits.2]

theorem splitSign_spec (s : List Char) :
    s = (splitSign s).1 ++ (splitSign s).2 ∧
      ((splitSign s).1 = [] ∨ (splitSign s).1 = ['+'] ∨ (splitSign s).1 = ['-']) := by
  unfold splitSign
  cases s with
  | nil => exact ⟨rfl, .inl rfl⟩
  | cons c s =>
      by_cases hc : c = '+' ∨ c = '-'
      · rw [if_pos (by simpa using hc)]
        refine ⟨rfl, .inr ?_⟩
        rcases hc with rfl | rfl
        · exact .inl rfl
        · exact .inr rfl
      · rw [if_neg (by simpa using hc)]
        exact ⟨rfl, .inl rfl⟩

/-- A numeral has neither blanks nor a sign. -/
theorem SignedNumeral.nil_of_numeral {s blanks sign digits : List Char}
    (h : SignedNumeral s blanks sign digits) (hs : Numeral s) : blanks = [] ∧ sign = [] := by
  have hmem : ∀ c ∈ blanks ++ sign, c.isDigit = true := by
    intro c hc
    apply hs.2 c
    rw [h.text, ← List.append_assoc]
    exact List.mem_append_left _ hc
  constructor
  · rw [List.eq_nil_iff_forall_not_mem]
    intro c hc
    have hspace := isspace_eq_false_of_isDigit (hmem c (List.mem_append_left _ hc))
    rw [h.blanks c hc] at hspace
    cases hspace
  · rcases h.sign with hsign | hsign | hsign
    · exact hsign
    · exact absurd (hmem '+' (by simp [hsign])) (by decide)
    · exact absurd (hmem '-' (by simp [hsign])) (by decide)

theorem signedValue_toNat {digits : List Char} (h : Nat.ofDigitChars 10 digits 0 < 2 ^ 64) :
    (signedValue [] digits).toNat = Nat.ofDigitChars 10 digits 0 := by
  unfold signedValue
  rw [if_neg (Nat.not_le_of_lt h), if_neg (by decide), BitVec.toNat_ofNat, Nat.mod_eq_of_lt h]

/-- What `strtoul` reads to the end is empty, or blanks, a sign and a numeral. -/
theorem signedNumeral_of_strtoul {s : List Char} (h : (strtoul s).2 = []) :
    s = [] ∨ ∃ blanks sign digits, SignedNumeral s blanks sign digits := by
  unfold strtoul at h
  simp only at h
  split at h
  · exact .inl h
  · next hne =>
      obtain ⟨hsplit, hsign⟩ := splitSign_spec (s.dropWhile isspace)
      refine .inr ⟨s.takeWhile isspace, _, (splitSign (s.dropWhile isspace)).2, ?_, ?_, hsign,
        ?_, List.dropWhile_eq_nil_iff.mp h⟩
      · rw [← hsplit, List.takeWhile_append_dropWhile]
      · exact fun c hc => List.mem_takeWhile_imp hc
      · intro hnil
        rw [hnil] at hne
        exact hne rfl

end CString

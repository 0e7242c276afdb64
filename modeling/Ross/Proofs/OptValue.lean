import Ross.Core.Opts

/-!
# Numbers as values of options

`apply_opt` takes what `strtoul` reads to the end of the string.  That is exact for a
numeral that the variable can hold.
-/

namespace Ross

open CString

/-- The bits of the variable of an option that holds an unsigned number. -/
def TwOpttype.bits : TwOpttype → Option Nat
  | .uint => some 32
  | .ulong | .ulonglong => some 64
  | _ => none

/-- The number in the variable of an option. -/
def OptValue.number {D : Type} : OptValue D → Option Nat
  | .ulong v | .ulonglong v => some v.toNat
  | .uint v => some v.toNat
  | _ => none

variable {D : Type} {c : OptSetup D} {nested : Option (Nested D)} {d : TwOptdef} {w : Nat}
  {s : List Char} {vars : OptVars D}

/-- The three types of unsigned options convert what `strtoul` has read. -/
theorem newValue_unsigned (c : OptSetup D) (s : List Char) (hw : d.type.bits = some w) :
    w ≤ 64 ∧ d.type ≠ .argsfile ∧ ∃ f : BitVec 64 → OptValue D,
      (∀ v, (f v).number = some (v.toNat % 2 ^ w)) ∧
        newValue c d (some s) = (unsignedValue d (some s)).map f := by
  have hmod : ∀ v : BitVec 64, v.toNat % 2 ^ 64 = v.toNat := fun v => Nat.mod_eq_of_lt v.isLt
  obtain ⟨type, name, value⟩ := d
  cases type with
  | ulong =>
      cases hw
      exact ⟨le_rfl, nofun, .ulong, fun v => congrArg some (hmod v).symm, rfl⟩
  | ulonglong =>
      cases hw
      exact ⟨le_rfl, nofun, .ulonglong, fun v => congrArg some (hmod v).symm, rfl⟩
  | uint =>
      cases hw
      exact ⟨by decide, nofun, fun v => .uint (v.setWidth 32),
        fun v => congrArg some (BitVec.toNat_setWidth 32 v), rfl⟩
  | _ => cases hw

/-- An unsigned option holds the low bits of what `strtoul` has read. -/
theorem applyOpt_unsigned (c : OptSetup D) (nested : Option (Nested D)) (s : List Char)
    (vars : OptVars D) (hw : d.type.bits = some w) :
    w ≤ 64 ∧ ∃ f : BitVec 64 → OptValue D, (∀ v, (f v).number = some (v.toNat % 2 ^ w)) ∧
      applyOpt c nested d (some s) vars =
        if (strtoul s).2 ≠ [] then .error (.needArgument d)
        else .ok (Function.update vars d.value (f (strtoul s).1)) := by
  obtain ⟨hle, htype, f, hf, hnew⟩ := newValue_unsigned c s hw
  have hread : unsignedValue d (some s) =
      if (strtoul s).2 ≠ [] then .error (.needArgument d) else .ok (strtoul s).1 := rfl
  refine ⟨hle, f, hf, ?_⟩
  unfold applyOpt
  rw [if_neg htype, hnew, hread]
  split <;> rfl

/-- The program stops with the message that the option needs an argument, or the string is
a numeral and the variable holds its number. -/
def Exact (c : OptSetup D) (nested : Option (Nested D)) (d : TwOptdef) (s : List Char)
    (vars : OptVars D) : Prop :=
  applyOpt c nested d (some s) vars = .error (.needArgument d) ∨
    Numeral s ∧ ∃ v : OptValue D, v.number = some (Nat.ofDigitChars 10 s 0) ∧
      applyOpt c nested d (some s) vars = .ok (Function.update vars d.value v)

/-- The value is not empty and, where it is a numeral behind blanks and a sign, has neither
of them and a number that fits. -/
def PlainNumber (w : Nat) (s : List Char) : Prop :=
  s ≠ [] ∧ ∀ blanks sign digits, SignedNumeral s blanks sign digits →
    blanks = [] ∧ sign = [] ∧ Nat.ofDigitChars 10 digits 0 < 2 ^ w

/-- A numeral is such a value if its number fits. -/
theorem PlainNumber.of_numeral (hs : Numeral s) (hlt : Nat.ofDigitChars 10 s 0 < 2 ^ w) :
    PlainNumber w s := by
  refine ⟨hs.1, ?_⟩
  intro blanks sign digits hsigned
  obtain ⟨hblanks, hsign⟩ := hsigned.nil_of_numeral hs
  have htext := hsigned.text
  rw [hblanks, hsign, List.nil_append, List.nil_append] at htext
  exact ⟨hblanks, hsign, htext ▸ hlt⟩

theorem applyOpt_exact_iff (c : OptSetup D) (nested : Option (Nested D)) (d : TwOptdef)
    (s : List Char) (vars : OptVars D) (w : Nat) (hw : d.type.bits = some w) :
    Exact c nested d s vars ↔ PlainNumber w s := by
  obtain ⟨hle, f, hnumber, happ⟩ := applyOpt_unsigned c nested s vars hw
  unfold Exact PlainNumber
  constructor
  · intro hexact
    have hread : (strtoul s).2 = [] → Numeral s ∧ Nat.ofDigitChars 10 s 0 < 2 ^ w := by
      intro hend
      rw [happ, if_neg (not_not_intro hend)] at hexact
      rcases hexact with herr | ⟨hnum, v, hv, hok⟩
      · cases herr
      · injection hok with hok
        have hval := congrFun hok d.value
        rw [Function.update_self, Function.update_self] at hval
        rw [← hval, hnumber, Option.some.injEq] at hv
        rw [← hv]
        exact ⟨hnum, Nat.mod_lt _ (Nat.two_pow_pos w)⟩
    constructor
    · intro hnil
      exact (hread (by rw [hnil]; rfl)).1.1 hnil
    · intro blanks sign digits hsigned
      obtain ⟨hnum, hlt⟩ := hread (by rw [strtoul_signedNumeral hsigned])
      exact (PlainNumber.of_numeral hnum hlt).2 blanks sign digits hsigned
  · rintro ⟨hne, hplain⟩
    by_cases hend : (strtoul s).2 = []
    · rcases signedNumeral_of_strtoul hend with hnil | ⟨blanks, sign, digits, hsigned⟩
      · exact absurd hnil hne
      · obtain ⟨hblanks, hsign, hlt⟩ := hplain blanks sign digits hsigned
        have htext := hsigned.text
        have hnum := hsigned.digits
        have hval := strtoul_signedNumeral hsigned
        rw [hblanks, hsign, List.nil_append, List.nil_append] at htext
        subst htext hsign
        refine .inr ⟨hnum, f (strtoul s).1, ?_, ?_⟩
        · rw [hnumber, hval,
            signedValue_toNat (hlt.trans_le (Nat.pow_le_pow_right (by decide) hle)),
            Nat.mod_eq_of_lt hlt]
        · rw [happ, if_neg (not_not_intro hend)]
    · refine .inl ?_
      rw [happ, if_pos hend]

/-- The option `nkp`. -/
def nkpOption : TwOptdef := ⟨.uint, some ['n', 'k', 'p'], 1⟩

/-- A program in which no file can be opened and no number with a point is read. -/
def plainSetup : OptSetup Unit := ⟨fun s => ((), s), fun _ => none, fun _ => 0⟩

theorem applyOpt_exact_sixteen :
    Exact plainSetup none nkpOption ['1', '6'] (fun _ => .uint 0) :=
  (applyOpt_exact_iff plainSetup none nkpOption ['1', '6'] (fun _ => .uint 0) 32 rfl).mpr
    (PlainNumber.of_numeral (by decide) (by decide))

/-- An empty value is taken for 0. -/
theorem applyOpt_inexact :
    ¬ ∀ (D : Type) (c : OptSetup D) (nested : Option (Nested D)) (d : TwOptdef)
      (s : List Char) (vars : OptVars D) (w : Nat), d.type.bits = some w →
        Exact c nested d s vars := by
  intro h
  have hok : applyOpt plainSetup none nkpOption (some []) (fun _ => .uint 0) =
      .ok (Function.update (fun _ => .uint 0) 1 (.uint 0)) := rfl
  rcases h Unit plainSetup none nkpOption [] (fun _ => .uint 0) 32 rfl with herr | ⟨hnum, -⟩
  · rw [hok] at herr
    cases herr
  · exact hnum.1 rfl

end Ross

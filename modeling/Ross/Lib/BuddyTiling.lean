import Mathlib.Algebra.Order.Ring.Nat
import Mathlib.Data.Nat.Bitwise
import Mathlib.Tactic.Ring

/-!
# Tilings by blocks of powers of two

A block of order `k` has `2 ^ k` places and starts at a multiple of it.  The buddy of a
block is the block beside it that it came from one block with.  In a tiling a block
starts at the start of every buddy, so looking there tells whether the two can be put
together.
-/

namespace BuddyTiling

variable {α : Type*}

/-- The blocks by their starts, each with its order and a label. -/
abbrev Blocks (α : Type*) := Nat → Option (Nat × α)

/-! ## Multiples -/

theorem eq_of_dvd {d x y : Nat} (hx : d ∣ x) (hy : d ∣ y) (hle : x ≤ y) (hlt : y < x + d) :
    x = y := by
  obtain ⟨z, rfl⟩ := Nat.exists_eq_add_of_le hle
  have hz : d ∣ z := (Nat.dvd_add_right hx).mp hy
  have hz0 : z = 0 := Nat.eq_zero_of_dvd_of_lt hz (by omega)
  omega

theorem le_of_dvd_of_lt {d x y : Nat} (hx : d ∣ x) (hy : d ∣ y) (hlt : x < y + d) : x ≤ y := by
  by_contra hyx
  have heq := eq_of_dvd hy hx (by omega) hlt
  omega

theorem add_le_of_dvd_of_lt {d x y : Nat} (hx : d ∣ x) (hy : d ∣ y) (hlt : x < y) : x + d ≤ y := by
  by_contra hle
  have heq := eq_of_dvd hx hy hlt.le (by omega)
  omega

/-- The start of the buddy of a block of order `k`. -/
theorem xor_two_pow {k o : Nat} (h : 2 ^ k ∣ o) :
    o ^^^ 2 ^ k = o + 2 ^ k ∧ 2 ^ (k + 1) ∣ o ∨
      (o ^^^ 2 ^ k) + 2 ^ k = o ∧ 2 ^ (k + 1) ∣ o ^^^ 2 ^ k := by
  obtain ⟨m, rfl⟩ := h
  have hxor : 2 ^ k * m ^^^ 2 ^ k = 2 ^ k * (m ^^^ 1) := by
    have hshift := Nat.shiftLeft_xor_distrib (i := k) (a := m) (b := 1)
    rw [Nat.shiftLeft_eq, Nat.shiftLeft_eq, Nat.shiftLeft_eq, one_mul] at hshift
    rw [mul_comm, mul_comm (2 ^ k) (m ^^^ 1)]
    exact hshift.symm
  have hdiv : (m ^^^ 1) / 2 = m / 2 := by
    rw [Nat.xor_div_two]
    simp
  have hmod := Nat.xor_mod_two_eq_one (a := m) (b := 1)
  have hpow : 2 ^ (k + 1) = 2 ^ k * 2 := pow_succ 2 k
  rw [hxor, hpow]
  by_cases hm : m % 2 = 1
  · right
    have h1 : (m ^^^ 1) + 1 = m := by omega
    refine ⟨?_, Nat.mul_dvd_mul_left _ (by omega)⟩
    rw [← Nat.mul_succ, Nat.succ_eq_add_one, h1]
  · left
    have h1 : m ^^^ 1 = m + 1 := by omega
    refine ⟨?_, Nat.mul_dvd_mul_left _ (by omega)⟩
    rw [h1, Nat.mul_succ]

theorem xor_xor_two_pow (o k : Nat) : o ^^^ 2 ^ k ^^^ 2 ^ k = o := by
  rw [Nat.xor_assoc, Nat.xor_self, Nat.xor_zero]

/-- The second half of a block is the buddy of the first. -/
theorem xor_first {k o : Nat} (h : 2 ^ (k + 1) ∣ o) : o ^^^ 2 ^ k = o + 2 ^ k := by
  rcases xor_two_pow ((pow_dvd_pow 2 (Nat.le_succ k)).trans h) with ⟨heq, -⟩ | ⟨heq, hd⟩
  · exact heq
  · have hle := le_of_dvd_of_lt h hd (by rw [pow_succ]; have := Nat.two_pow_pos k; omega)
    have hpos := Nat.two_pow_pos k
    omega

/-! ## Tilings -/

/-- Aligned blocks of the orders `lo` to `p` that cover the places below `2 ^ p`, each
once. -/
structure Tiles (lo p : Nat) (blk : Blocks α) : Prop where
  order : ∀ {o k u}, blk o = some (k, u) → lo ≤ k ∧ k ≤ p
  aligned : ∀ {o k u}, blk o = some (k, u) → 2 ^ k ∣ o
  inside : ∀ {o k u}, blk o = some (k, u) → o + 2 ^ k ≤ 2 ^ p
  covers : ∀ {x}, x < 2 ^ p → ∃ o k u, blk o = some (k, u) ∧ o ≤ x ∧ x < o + 2 ^ k
  disjoint : ∀ {o k u o' k' u' x}, blk o = some (k, u) → blk o' = some (k', u') →
    o ≤ x → x < o + 2 ^ k → o' ≤ x → x < o' + 2 ^ k' → o = o'

variable {lo p k o : Nat} {u v w : α} {blk : Blocks α}

theorem Tiles.lt (h : Tiles lo p blk) (ho : blk o = some (k, u)) : o < 2 ^ p := by
  have hin := h.inside ho
  have hpos : 0 < 2 ^ k := Nat.two_pow_pos k
  omega

/-- The buddy of a block that is not all lies inside. -/
theorem Tiles.buddy_lt (h : Tiles lo p blk) (ho : blk o = some (k, u)) (hk : k < p) :
    (o ^^^ 2 ^ k) + 2 ^ k ≤ 2 ^ p := by
  have hlt := h.lt ho
  have hin := h.inside ho
  rcases xor_two_pow (h.aligned ho) with ⟨hb, hd⟩ | ⟨hb, -⟩
  · have hle := add_le_of_dvd_of_lt hd (pow_dvd_pow 2 hk) hlt
    rw [hb]
    rw [pow_succ] at hle
    omega
  · omega

/-- A block of at most the same order starts where the buddy of a block starts. -/
theorem Tiles.buddy (h : Tiles lo p blk) (ho : blk o = some (k, u)) (hk : k < p) :
    ∃ k' u', blk (o ^^^ 2 ^ k) = some (k', u') ∧ k' ≤ k := by
  have hpos : 0 < 2 ^ k := Nat.two_pow_pos k
  have hlt := h.buddy_lt ho hk
  obtain ⟨o', k', u', ho', hle, hlt'⟩ := h.covers (x := o ^^^ 2 ^ k) (by omega)
  have hkk : k' ≤ k := by
    by_contra hgt
    have hd' : 2 ^ (k + 1) ∣ 2 ^ k' := pow_dvd_pow 2 (by omega)
    have hdo' : 2 ^ (k + 1) ∣ o' := hd'.trans (h.aligned ho')
    have hdend : 2 ^ (k + 1) ∣ o' + 2 ^ k' := Nat.dvd_add hdo' hd'
    have hpow : 2 ^ (k + 1) = 2 ^ k * 2 := pow_succ 2 k
    have hsame : o = o' := by
      rcases xor_two_pow (h.aligned ho) with ⟨hb, hd⟩ | ⟨hb, hd⟩
      · have h1 : o' ≤ o := le_of_dvd_of_lt hdo' hd (by omega)
        exact h.disjoint ho ho' le_rfl (by omega) h1 (by omega)
      · have h1 := add_le_of_dvd_of_lt hd hdend hlt'
        exact h.disjoint ho ho' le_rfl (by omega) (by omega) (by omega)
    subst hsame
    rw [ho, Option.some.injEq, Prod.mk.injEq] at ho'
    omega
  have hd' : 2 ^ k' ∣ o ^^^ 2 ^ k := by
    have hdk : 2 ^ k' ∣ 2 ^ k := pow_dvd_pow 2 hkk
    have hdo : 2 ^ k' ∣ o := hdk.trans (h.aligned ho)
    rcases xor_two_pow (h.aligned ho) with ⟨hb, -⟩ | ⟨-, hd⟩
    · rw [hb]
      exact Nat.dvd_add hdo hdk
    · exact (pow_dvd_pow 2 (by omega)).trans hd
  obtain rfl := eq_of_dvd (h.aligned ho') hd' hle hlt'
  exact ⟨k', u', ho', hkk⟩

/-! ## Changes -/

/-- The label of a block changes. -/
theorem Tiles.relabel (h : Tiles lo p blk) (ho : blk o = some (k, u)) (v : α) :
    Tiles lo p (Function.update blk o (some (k, v))) := by
  have hback : ∀ {o' k' u'}, Function.update blk o (some (k, v)) o' = some (k', u') →
      ∃ u'', blk o' = some (k', u'') := by
    intro o' k' u' h'
    by_cases heq : o' = o
    · subst heq
      rw [Function.update_self, Option.some.injEq, Prod.mk.injEq] at h'
      exact ⟨u, h'.1 ▸ ho⟩
    · rw [Function.update_of_ne heq] at h'
      exact ⟨u', h'⟩
  refine ⟨fun h' => ?_, fun h' => ?_, fun h' => ?_, fun hx => ?_, fun h₁ h₂ => ?_⟩
  · obtain ⟨_, h'⟩ := hback h'
    exact h.order h'
  · obtain ⟨_, h'⟩ := hback h'
    exact h.aligned h'
  · obtain ⟨_, h'⟩ := hback h'
    exact h.inside h'
  · obtain ⟨o', k', u', ho', hin⟩ := h.covers hx
    by_cases heq : o' = o
    · subst heq
      rw [ho, Option.some.injEq, Prod.mk.injEq] at ho'
      obtain ⟨rfl, -⟩ := ho'
      exact ⟨o', k, v, Function.update_self _ _ _, hin⟩
    · exact ⟨o', k', u', by rw [Function.update_of_ne heq, ho'], hin⟩
  · obtain ⟨_, h₁⟩ := hback h₁
    obtain ⟨_, h₂⟩ := hback h₂
    exact h.disjoint h₁ h₂

/-- The block `o` in two. -/
def split (blk : Blocks α) (o k : Nat) (v : α) : Blocks α :=
  Function.update (Function.update blk o (some (k, v))) (o + 2 ^ k) (some (k, v))

theorem split_first (blk : Blocks α) (o k : Nat) (v : α) : split blk o k v o = some (k, v) := by
  have hpos : 0 < 2 ^ k := Nat.two_pow_pos k
  rw [split, Function.update_of_ne (by omega), Function.update_self]

theorem split_second (blk : Blocks α) (o k : Nat) (v : α) :
    split blk o k v (o + 2 ^ k) = some (k, v) := Function.update_self _ _ _

theorem split_of_ne {x : Nat} (h₁ : x ≠ o) (h₂ : x ≠ o + 2 ^ k) :
    split blk o k v x = blk x := by
  rw [split, Function.update_of_ne h₂, Function.update_of_ne h₁]

/-- What the blocks after a split are. -/
theorem split_cases {x k' : Nat} {u' : α} (h : split blk o k v x = some (k', u')) :
    (x = o ∨ x = o + 2 ^ k) ∧ k' = k ∧ u' = v ∨
      x ≠ o ∧ x ≠ o + 2 ^ k ∧ blk x = some (k', u') := by
  by_cases h₁ : x = o
  · subst h₁
    rw [split_first, Option.some.injEq, Prod.mk.injEq] at h
    exact .inl ⟨.inl rfl, h.1.symm, h.2.symm⟩
  · by_cases h₂ : x = o + 2 ^ k
    · subst h₂
      rw [split_second, Option.some.injEq, Prod.mk.injEq] at h
      exact .inl ⟨.inr rfl, h.1.symm, h.2.symm⟩
    · rw [split_of_ne h₁ h₂] at h
      exact .inr ⟨h₁, h₂, h⟩

theorem Tiles.split (h : Tiles lo p blk) (ho : blk o = some (k + 1, u)) (hlo : lo ≤ k) (v : α) :
    Tiles lo p (split blk o k v) := by
  have hpow : 2 ^ (k + 1) = 2 ^ k * 2 := pow_succ 2 k
  have hpos : 0 < 2 ^ k := Nat.two_pow_pos k
  have hdo : 2 ^ k ∣ o := (pow_dvd_pow 2 (Nat.le_succ k)).trans (h.aligned ho)
  have hin := h.inside ho
  have hord := h.order ho
  -- a place of a block after the split is in one block of before
  have hback : ∀ {x k' u' y}, BuddyTiling.split blk o k v x = some (k', u') → x ≤ y →
      y < x + 2 ^ k' → (o ≤ y ∧ y < o + 2 ^ (k + 1) ∧ k' = k ∧ (x = o ∨ x = o + 2 ^ k)) ∨
        x ≠ o ∧ blk x = some (k', u') := by
    intro x k' u' y hx hle hlt
    rcases split_cases hx with ⟨hxo, rfl, -⟩ | ⟨hne, -, hx⟩
    · left
      rcases hxo with rfl | rfl
      · exact ⟨hle, by omega, rfl, .inl rfl⟩
      · exact ⟨by omega, by omega, rfl, .inr rfl⟩
    · exact .inr ⟨hne, hx⟩
  refine ⟨fun hx => ?_, fun hx => ?_, fun hx => ?_, fun {x} hx => ?_,
    fun h₁ h₂ hle₁ hlt₁ hle₂ hlt₂ => ?_⟩
  · rcases split_cases hx with ⟨-, rfl, -⟩ | ⟨-, -, hx⟩
    · omega
    · exact h.order hx
  · rcases split_cases hx with ⟨rfl | rfl, rfl, -⟩ | ⟨-, -, hx⟩
    · exact hdo
    · exact Nat.dvd_add hdo dvd_rfl
    · exact h.aligned hx
  · rcases split_cases hx with ⟨rfl | rfl, rfl, -⟩ | ⟨-, -, hx⟩
    · omega
    · omega
    · exact h.inside hx
  · obtain ⟨o', k', u', ho', hle, hlt⟩ := h.covers hx
    by_cases heq : o' = o
    · subst heq
      rw [ho, Option.some.injEq, Prod.mk.injEq] at ho'
      obtain ⟨rfl, -⟩ := ho'
      by_cases hlt' : x < o' + 2 ^ k
      · exact ⟨o', k, v, split_first _ _ _ _, hle, hlt'⟩
      · exact ⟨o' + 2 ^ k, k, v, split_second _ _ _ _, by omega, by omega⟩
    · have hne : o' ≠ o + 2 ^ k := by
        rintro rfl
        exact heq (h.disjoint ho' ho le_rfl (by have := Nat.two_pow_pos k'; omega) (by omega)
          (by omega))
      exact ⟨o', k', u', by rw [split_of_ne heq hne, ho'], hle, hlt⟩
  · rcases hback h₁ hle₁ hlt₁ with ⟨ha₁, hb₁, hk₁, hx₁⟩ | ⟨hne₁, hx₁⟩ <;>
      rcases hback h₂ hle₂ hlt₂ with ⟨ha₂, hb₂, hk₂, hx₂⟩ | ⟨hne₂, hx₂⟩
    · rw [hk₁] at hlt₁
      rw [hk₂] at hlt₂
      omega
    · exact absurd (h.disjoint hx₂ ho hle₂ hlt₂ ha₁ hb₁) hne₂
    · exact absurd (h.disjoint hx₁ ho hle₁ hlt₁ ha₂ hb₂) hne₁
    · exact h.disjoint hx₁ hx₂ hle₁ hlt₁ hle₂ hlt₂

/-- The block `o` and its buddy in one. -/
def merge (blk : Blocks α) (o k : Nat) (w : α) : Blocks α :=
  Function.update (Function.update (Function.update blk o none) (o ^^^ 2 ^ k) none)
    (min o (o ^^^ 2 ^ k)) (some (k + 1, w))

theorem merge_min (blk : Blocks α) (o k : Nat) (w : α) :
    merge blk o k w (min o (o ^^^ 2 ^ k)) = some (k + 1, w) := Function.update_self _ _ _

theorem merge_of_ne {x : Nat} (h₁ : x ≠ o) (h₂ : x ≠ o ^^^ 2 ^ k) :
    merge blk o k w x = blk x := by
  have hmin : x ≠ min o (o ^^^ 2 ^ k) := by
    rcases min_choice o (o ^^^ 2 ^ k) with h | h <;> rw [h]
    · exact h₁
    · exact h₂
  rw [merge, Function.update_of_ne hmin, Function.update_of_ne h₂, Function.update_of_ne h₁]

/-- What the blocks after a merge are. -/
theorem merge_cases {x k' : Nat} {u' : α} (h : merge blk o k w x = some (k', u')) :
    x = min o (o ^^^ 2 ^ k) ∧ k' = k + 1 ∧ u' = w ∨
      x ≠ o ∧ x ≠ o ^^^ 2 ^ k ∧ blk x = some (k', u') := by
  by_cases hmin : x = min o (o ^^^ 2 ^ k)
  · subst hmin
    rw [merge_min, Option.some.injEq, Prod.mk.injEq] at h
    exact .inl ⟨rfl, h.1.symm, h.2.symm⟩
  · rw [merge, Function.update_of_ne hmin] at h
    by_cases h₂ : x = o ^^^ 2 ^ k
    · subst h₂
      rw [Function.update_self] at h
      cases h
    · rw [Function.update_of_ne h₂] at h
      by_cases h₁ : x = o
      · subst h₁
        rw [Function.update_self] at h
        cases h
      · rw [Function.update_of_ne h₁] at h
        exact .inr ⟨h₁, h₂, h⟩

theorem Tiles.merge (h : Tiles lo p blk) (ho : blk o = some (k, u))
    (hb : blk (o ^^^ 2 ^ k) = some (k, v)) (hk : k < p) (w : α) :
    Tiles lo p (merge blk o k w) := by
  have hpow : 2 ^ (k + 1) = 2 ^ k * 2 := pow_succ 2 k
  have hpos : 0 < 2 ^ k := Nat.two_pow_pos k
  have hxor := xor_two_pow (h.aligned ho)
  have hino := h.inside ho
  have hinb := h.inside hb
  have hord := h.order ho
  have hmin : ∀ y, min o (o ^^^ 2 ^ k) ≤ y ∧ y < min o (o ^^^ 2 ^ k) + 2 ^ (k + 1) ↔
      (o ≤ y ∧ y < o + 2 ^ k) ∨ (o ^^^ 2 ^ k ≤ y ∧ y < (o ^^^ 2 ^ k) + 2 ^ k) := by
    intro y
    omega
  have hne : ∀ {x k' u' y}, x ≠ o → x ≠ o ^^^ 2 ^ k → blk x = some (k', u') → x ≤ y →
      y < x + 2 ^ k' → ¬ (min o (o ^^^ 2 ^ k) ≤ y ∧ y < min o (o ^^^ 2 ^ k) + 2 ^ (k + 1)) := by
    intro x k' u' y h₁ h₂ hx hle hlt hy
    rcases (hmin y).mp hy with ⟨ha, hb'⟩ | ⟨ha, hb'⟩
    · exact h₁ (h.disjoint hx ho hle hlt ha hb')
    · exact h₂ (h.disjoint hx hb hle hlt ha hb')
  refine ⟨fun hx => ?_, fun hx => ?_, fun hx => ?_, fun {x} hx => ?_,
    fun {x₁ k₁ u₁ x₂ k₂ u₂ y} h₁ h₂ hle₁ hlt₁ hle₂ hlt₂ => ?_⟩
  · rcases merge_cases hx with ⟨-, rfl, -⟩ | ⟨-, -, hx⟩
    · omega
    · exact h.order hx
  · rcases merge_cases hx with ⟨rfl, rfl, -⟩ | ⟨-, -, hx⟩
    · rcases hxor with ⟨heq, hd⟩ | ⟨heq, hd⟩
      · rw [min_eq_left (by omega)]
        exact hd
      · rw [min_eq_right (by omega)]
        exact hd
    · exact h.aligned hx
  · rcases merge_cases hx with ⟨rfl, rfl, -⟩ | ⟨-, -, hx⟩
    · omega
    · exact h.inside hx
  · obtain ⟨o', k', u', ho', hle, hlt⟩ := h.covers hx
    by_cases h₁ : o' = o
    · subst h₁
      rw [ho, Option.some.injEq, Prod.mk.injEq] at ho'
      obtain ⟨rfl, -⟩ := ho'
      exact ⟨_, _, _, merge_min blk o' k w, (hmin x).mpr (.inl ⟨hle, hlt⟩)⟩
    · by_cases h₂ : o' = o ^^^ 2 ^ k
      · subst h₂
        rw [hb, Option.some.injEq, Prod.mk.injEq] at ho'
        obtain ⟨rfl, -⟩ := ho'
        exact ⟨_, _, _, merge_min blk o k w, (hmin x).mpr (.inr ⟨hle, hlt⟩)⟩
      · exact ⟨o', k', u', by rw [merge_of_ne h₁ h₂, ho'], hle, hlt⟩
  · rcases merge_cases h₁ with ⟨hx₁, rfl, -⟩ | ⟨ha₁, hb₁, hx₁⟩ <;>
      rcases merge_cases h₂ with ⟨hx₂, rfl, -⟩ | ⟨ha₂, hb₂, hx₂⟩
    · exact hx₁.trans hx₂.symm
    · exact absurd ⟨hx₁ ▸ hle₁, hx₁ ▸ hlt₁⟩ (hne ha₂ hb₂ hx₂ hle₂ hlt₂)
    · exact absurd ⟨hx₂ ▸ hle₂, hx₂ ▸ hlt₂⟩ (hne ha₁ hb₁ hx₁ hle₁ hlt₁)
    · exact h.disjoint hx₁ hx₂ hle₁ hlt₁ hle₂ hlt₂

/-- A tiling by blocks of one label without two buddies is one block. -/
theorem Tiles.whole (h : Tiles lo p blk) (hu : ∀ {o k u'}, blk o = some (k, u') → u' = u)
    (hbud : ∀ {o k}, k < p → blk o = some (k, u) → blk (o ^^^ 2 ^ k) ≠ some (k, u)) :
    blk 0 = some (p, u) ∧ ∀ o, o ≠ 0 → blk o = none := by
  classical
  have hex : ∃ k, ∃ o, blk o = some (k, u) := by
    obtain ⟨o, k, u', ho, -, -⟩ := h.covers (Nat.two_pow_pos p)
    exact ⟨k, o, hu ho ▸ ho⟩
  obtain ⟨o, ho⟩ := Nat.find_spec hex
  -- the buddy of a smallest block would be one of the same order
  have hfind : Nat.find hex = p := by
    by_contra hne
    have hlt : Nat.find hex < p := lt_of_le_of_ne (h.order ho).2 hne
    obtain ⟨k', u', hb, hle⟩ := h.buddy ho hlt
    obtain rfl := hu hb
    have hge : Nat.find hex ≤ k' := Nat.find_min' hex ⟨_, hb⟩
    have hk' : k' = Nat.find hex := by omega
    exact hbud hlt ho (hk' ▸ hb)
  rw [hfind] at ho
  have hin := h.inside ho
  have ho0 : o = 0 := by omega
  subst ho0
  refine ⟨ho, fun x hx => ?_⟩
  by_contra hsome
  obtain ⟨⟨k, u'⟩, hx'⟩ := Option.ne_none_iff_exists'.mp hsome
  exact hx (h.disjoint hx' ho le_rfl (by have := Nat.two_pow_pos k; omega) (Nat.zero_le x)
    (by have := h.lt hx'; omega))

/-- One block is a tiling. -/
theorem Tiles.single (hlo : lo ≤ p) (u : α) :
    Tiles lo p (Function.update (fun _ => none) 0 (some (p, u)) : Blocks α) := by
  have hback : ∀ {o k u'}, (Function.update (fun _ => none) 0 (some (p, u)) : Blocks α) o =
      some (k, u') → o = 0 ∧ k = p := by
    intro o k u' h
    by_cases ho : o = 0
    · subst ho
      rw [Function.update_self, Option.some.injEq, Prod.mk.injEq] at h
      exact ⟨rfl, h.1.symm⟩
    · rw [Function.update_of_ne ho] at h
      cases h
  refine ⟨fun h => ?_, fun h => ?_, fun h => ?_, fun hx => ?_, fun h₁ h₂ _ _ _ _ => ?_⟩
  · obtain ⟨rfl, rfl⟩ := hback h
    exact ⟨hlo, le_rfl⟩
  · obtain ⟨rfl, rfl⟩ := hback h
    exact Nat.dvd_zero _
  · obtain ⟨rfl, rfl⟩ := hback h
    exact (Nat.zero_add _).le
  · exact ⟨0, p, u, Function.update_self _ _ _, Nat.zero_le _, by omega⟩
  · exact (hback h₁).1.trans (hback h₂).1.symm

end BuddyTiling

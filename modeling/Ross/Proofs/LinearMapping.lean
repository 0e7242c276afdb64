import Ross.Core.Mapping
import Ross.Lib.IntervalTiling
import Mathlib.Data.Fin.VecNotation
import Mathlib.Tactic.FinCases

/-!
# The gids of the linear mapping

Each PE starts its gids at its number times its own count of LPs.  So the gids of all
PEs are those below the total exactly when each PE's start is the number of LPs of
the PEs that start below it.
-/

namespace Ross

open IntervalTiling

/-! ## The loops -/

namespace MapEnv

variable {env : MapEnv} {s s' : MapArrays}

/-- The gid of the `i`-th LP of the PE, model LPs first. -/
def gidOf (env : MapEnv) (i : Nat) : Nat :=
  if i < env.gTwNlp then env.gTwLpOffset + i
  else env.gStTotalModelLps + env.gTwMynode * env.gStAnalysisNlp + (i - env.gTwNlp)

/-- The first `n` LPs are mapped, and no other. -/
structure Numbered (env : MapEnv) (s : MapArrays) (n : Nat) : Prop where
  length : s.gTwLp.length = env.gTwNlp + env.gStAnalysisNlp
  filled : ∀ i < n, ∃ kp, s.gTwLp[i]? = some (some ⟨env.gidOf i, i, kp⟩)
  rest : ∀ i, n ≤ i → (s.gTwLp[i]?).join = none

/-- Mapping the next LP fills the next slot. -/
theorem Numbered.mapLp {n gid kpid : Nat} (hs : Numbered env s n) (hgid : gid = env.gidOf n)
    (h : env.mapLp n gid kpid s = .ok s') : Numbered env s' (n + 1) := by
  unfold MapEnv.mapLp twLpOnpe at h
  rw [hs.rest n le_rfl] at h
  split at h
  next s₁ h₁ =>
    split at h₁
    · cases h₁
    next hlt =>
      have hn : n < s.gTwLp.length := by
        rw [hs.length]
        omega
      cases h₁
      unfold twLpOnkp at h
      dsimp only at h
      rw [List.getElem?_set_self hn, Option.join_some] at h
      dsimp only at h
      split at h
      · cases h
      next kp hkp =>
        cases h
        refine ⟨?_, fun i hi => ?_, fun i hi => ?_⟩
        · dsimp only
          rw [List.length_set, List.length_set, hs.length]
        · dsimp only
          by_cases hin : i = n
          · subst hin
            rw [List.getElem?_set_self (by rw [List.length_set]; exact hn), hgid]
            exact ⟨_, rfl⟩
          · rw [List.getElem?_set_ne (Ne.symm hin), List.getElem?_set_ne (Ne.symm hin)]
            exact hs.filled i (by omega)
        · dsimp only
          rw [List.getElem?_set_ne (by omega), List.getElem?_set_ne (by omega)]
          exact hs.rest i (by omega)
  · cases h

theorem lpLoop_ok {kpid j lpid lpid' : Nat} (hs : Numbered env s lpid)
    (hle : lpid ≤ env.gTwNlp) (h : env.lpLoop kpid j lpid s = .ok (lpid', s')) :
    Numbered env s' lpid' ∧ lpid' ≤ env.gTwNlp := by
  induction j generalizing lpid s with
  | zero =>
      cases h
      exact ⟨hs, hle⟩
  | succ j ih =>
      unfold lpLoop at h
      split at h
      next hlt =>
        split at h
        next s₁ h₁ =>
          exact ih (hs.mapLp (by rw [gidOf, if_pos hlt]) h₁) hlt h
        · cases h
      · cases h
        exact ⟨hs, hle⟩

theorem Numbered.twKpOnpe {n id : Nat} (hs : Numbered env s n) (h : env.twKpOnpe id s = .ok s') :
    Numbered env s' n := by
  unfold MapEnv.twKpOnpe at h
  split at h
  · cases h
  · split at h
    · cases h
    · cases h
      exact ⟨hs.length, hs.filled, hs.rest⟩

theorem kpLoop_ok {n kpid lpid : Nat} (hs : Numbered env s lpid) (hle : lpid ≤ env.gTwNlp)
    (h : env.kpLoop n kpid lpid s = .ok s') : ∃ m ≤ env.gTwNlp, Numbered env s' m := by
  induction n generalizing kpid lpid s with
  | zero =>
      cases h
      exact ⟨lpid, hle, hs⟩
  | succ n ih =>
      unfold kpLoop at h
      split at h
      · cases h
      next s₁ h₁ =>
        split at h
        · cases h
        next lpid₂ s₂ h₂ =>
          obtain ⟨hs₂, hle₂⟩ := lpLoop_ok (hs.twKpOnpe h₁) hle h₂
          exact ih hs₂ hle₂ h

/-- When `map_linear` returns, all model LPs are mapped. -/
theorem mapLinear_ok (hs : Numbered env s 0) (hpos : 0 < env.gTwNlp)
    (h : env.mapLinear s = .ok s') : Numbered env s' env.gTwNlp := by
  unfold mapLinear at h
  split at h
  · cases h
  split at h
  · cases h
  split at h
  · cases h
  next s₁ h₁ =>
    obtain ⟨m, hm, hs₁⟩ := kpLoop_ok hs (Nat.zero_le _) h₁
    split at h
    · cases h
    next lp hlp =>
      have hmn : m = env.gTwNlp := by
        by_contra hne
        rw [hs₁.rest (env.gTwNlp - 1) (by omega)] at hlp
        cases hlp
      split at h
      · cases h
      · cases h
        exact hmn ▸ hs₁

theorem analysisLoop_ok {n lpid : Nat} (hs : Numbered env s (env.gTwNlp + lpid))
    (h : env.analysisLoop n lpid s = .ok s') : Numbered env s' (env.gTwNlp + lpid + n) := by
  induction n generalizing lpid s with
  | zero =>
      cases h
      exact hs
  | succ n ih =>
      unfold analysisLoop at h
      split at h
      next s₁ h₁ =>
        have hgid : env.gStTotalModelLps + env.gTwMynode * env.gStAnalysisNlp + lpid =
            env.gidOf (env.gTwNlp + lpid) := by
          rw [gidOf, if_neg (by omega), Nat.add_sub_cancel_left]
        have hmap : Numbered env s₁ (env.gTwNlp + (lpid + 1)) := hs.mapLp hgid h₁
        have hs' := ih hmap h
        rw [show env.gTwNlp + lpid + (n + 1) = env.gTwNlp + (lpid + 1) + n by omega]
        exact hs'
      · cases h

end MapEnv

/-! ## One PE -/

namespace JobSetup

variable {npe : Nat} {job : JobSetup npe} {i j : Fin npe} {s : MapArrays}

open MapEnv

/-- When `tw_define_lps` returns, the LPs of the PE have their gids and no other. -/
theorem twDefineLps_ok (h : job.twDefineLps i = .ok s) : 0 < (job.pe i).nlp ∧
    Numbered (job.env i) s ((job.env i).gTwNlp + (job.env i).gStAnalysisNlp) := by
  unfold twDefineLps at h
  split at h
  · cases h
  next hnlp =>
    have hpos : 0 < (job.pe i).nlp := Nat.pos_of_ne_zero hnlp
    have hstart : Numbered (job.env i)
        ⟨List.replicate (job.env i).gTwNkp none,
          List.replicate ((job.env i).gTwNlp + (job.env i).gStAnalysisNlp) none⟩ 0 := by
      refine ⟨List.length_replicate, fun i hi => absurd hi (Nat.not_lt_zero i), fun i _ => ?_⟩
      dsimp only
      rw [List.getElem?_replicate]
      split <;> rfl
    split at h
    · cases h
    next s₁ h₁ =>
      have hs₁ := mapLinear_ok hstart hpos h₁
      have hzero : Numbered (job.env i) s₁ ((job.env i).gTwNlp + 0) := hs₁
      exact ⟨hpos, analysisLoop_ok hzero h⟩

/-- The slot of an LP is the one of its id, and has the gid of that id. -/
theorem slot_eq (h : job.twDefineLps i = .ok s) {l : Nat} {lp : LpSlot}
    (hlp : s.gTwLp[l]? = some (some lp)) :
    l < (job.env i).gTwNlp + (job.env i).gStAnalysisNlp ∧ lp.gid = (job.env i).gidOf l ∧
      lp.id = l := by
  obtain ⟨-, hs⟩ := twDefineLps_ok h
  have hl : l < (job.env i).gTwNlp + (job.env i).gStAnalysisNlp := by
    rw [← hs.length]
    exact (List.getElem?_eq_some_iff.mp hlp).1
  obtain ⟨kp, hkp⟩ := hs.filled l hl
  rw [hkp, Option.some.injEq, Option.some.injEq] at hlp
  subst hlp
  exact ⟨hl, rfl, rfl⟩

/-! ## All PEs -/

/-- The first gid of a PE, and its number of gids. -/
def firstGid (job : JobSetup npe) (i : Fin npe) : Nat := i * (job.pe i).nlp

def numLps (job : JobSetup npe) (i : Fin npe) : Nat := (job.pe i).nlp

/-- The `l`-th LP of PE `i` is a model LP and has the gid `gid`. -/
def HasGid (job : JobSetup npe) (s : Fin npe → MapArrays) (i : Fin npe) (l gid : Nat) : Prop :=
  l < (job.pe i).nlp ∧ ∃ lp, (s i).gTwLp[l]? = some (some lp) ∧ lp.gid = gid

/-- The gids of the model LPs of all PEs are different and are those below the total. -/
structure GidsBijective (job : JobSetup npe) (s : Fin npe → MapArrays) : Prop where
  distinct : ∀ i j l m gid, job.HasGid s i l gid → job.HasGid s j m gid → i = j ∧ l = m
  exact : ∀ gid, (∃ i l, job.HasGid s i l gid) ↔ gid < job.totalLps

/-- `tw_getlocal_lp` finds each LP of the PE by its gid. -/
def LooksUp (job : JobSetup npe) (i : Fin npe) (s : MapArrays) : Prop :=
  ∀ (l : Nat) (lp : LpSlot), s.gTwLp[l]? = some (some lp) →
    (job.env i).twGetlocalLp s lp.gid = some lp

variable {s : Fin npe → MapArrays}

theorem hasGid_iff (h : ∀ i, job.twDefineLps i = .ok (s i)) {l gid : Nat} :
    job.HasGid s i l gid ↔ l < (job.pe i).nlp ∧ gid = job.firstGid i + l := by
  have hgid : l < (job.pe i).nlp → (job.env i).gidOf l = job.firstGid i + l := by
    intro hl
    unfold gidOf
    exact if_pos hl
  constructor
  · rintro ⟨hl, lp, hlp, rfl⟩
    exact ⟨hl, (slot_eq (h i) hlp).2.1.trans (hgid hl)⟩
  · rintro ⟨hl, rfl⟩
    obtain ⟨-, hs⟩ := twDefineLps_ok (h i)
    obtain ⟨kp, hkp⟩ := hs.filled l (Nat.lt_add_right _ hl)
    exact ⟨hl, _, hkp, hgid hl⟩

/-- The gids are right exactly when the PEs' intervals of gids tile. -/
theorem gidsBijective_iff (h : ∀ i, job.twDefineLps i = .ok (s i)) :
    job.GidsBijective s ↔ Tiles job.firstGid job.numLps := by
  have hmem : ∀ i gid, gid ∈ Finset.Ico (job.firstGid i) (job.firstGid i + job.numLps i) ↔
      job.HasGid s i (gid - job.firstGid i) gid := by
    intro i gid
    rw [hasGid_iff h, Finset.mem_Ico, numLps]
    omega
  have hat : ∀ i l gid, job.HasGid s i l gid → l = gid - job.firstGid i := by
    intro i l gid hg
    have := ((hasGid_iff h).mp hg).2
    omega
  constructor
  · intro hb
    refine ⟨fun i j gid hi hj => ?_, fun gid => ?_⟩
    · exact (hb.distinct i j _ _ gid ((hmem i gid).mp hi) ((hmem j gid).mp hj)).1
    · refine Iff.trans ⟨?_, ?_⟩ (hb.exact gid)
      · rintro ⟨i, hi⟩
        exact ⟨i, _, (hmem i gid).mp hi⟩
      · rintro ⟨i, l, hg⟩
        refine ⟨i, (hmem i gid).mpr ?_⟩
        rw [← hat i l gid hg]
        exact hg
  · intro ht
    refine ⟨fun i j l m gid hi hj => ?_, fun gid => ?_⟩
    · have hl := hat i l gid hi
      have hm := hat j m gid hj
      rw [hl] at hi
      rw [hm] at hj
      have hij := ht.disjoint i j gid ((hmem i gid).mpr hi) ((hmem j gid).mpr hj)
      subst hij
      exact ⟨rfl, hl.trans hm.symm⟩
    · refine Iff.trans ⟨?_, ?_⟩ (ht.covers gid)
      · rintro ⟨i, l, hg⟩
        refine ⟨i, (hmem i gid).mpr ?_⟩
        rw [← hat i l gid hg]
        exact hg
      · rintro ⟨i, hi⟩
        exact ⟨i, _, (hmem i gid).mp hi⟩

/-- A model LP is found by a gid that is below those of the analysis LPs. -/
theorem twGetlocalLp_model {t : MapArrays} (h : job.twDefineLps i = .ok t) {l : Nat} {lp : LpSlot}
    (hlp : t.gTwLp[l]? = some (some lp)) (hl : l < (job.pe i).nlp)
    (hlow : job.vtStats = true → lp.gid < (job.env i).gStTotalModelLps) :
    (job.env i).twGetlocalLp t lp.gid = some lp := by
  have hgid : lp.gid = (job.env i).gTwLpOffset + l := (slot_eq h hlp).2.1.trans (if_pos hl)
  have hnot : ¬ ((job.env i).gStUseAnalysisLps = true ∧
      (job.env i).gStTotalModelLps ≤ lp.gid) := by
    rintro ⟨hvt, hle⟩
    exact absurd (hlow hvt) (not_lt.mpr hle)
  unfold twGetlocalLp
  rw [if_neg hnot, if_pos (by omega), hgid, Nat.add_sub_cancel_left, hlp, Option.join_some]

/-- An analysis LP is found by its gid. -/
theorem twGetlocalLp_analysis {t : MapArrays} (h : job.twDefineLps i = .ok t) {l : Nat}
    {lp : LpSlot} (hlp : t.gTwLp[l]? = some (some lp)) (hl : (job.pe i).nlp ≤ l) :
    (job.env i).twGetlocalLp t lp.gid = some lp := by
  obtain ⟨hlt, hgid, -⟩ := slot_eq h hlp
  have hnlp : (job.env i).gTwNlp = (job.pe i).nlp := rfl
  have hvt : job.vtStats = true := by
    by_contra hne
    have hzero : (job.env i).gStAnalysisNlp = 0 := if_neg hne
    omega
  have hana : (job.env i).gStAnalysisNlp = (job.env i).gTwNkp := if_pos hvt
  have hgid' : lp.gid = (job.env i).gStTotalModelLps +
      ((job.env i).gTwMynode * (job.env i).gTwNkp + (l - (job.env i).gTwNlp)) := by
    rw [hgid, gidOf, if_neg (by omega), hana, Nat.add_assoc]
  have hmod : ((job.env i).gTwMynode * (job.env i).gTwNkp + (l - (job.env i).gTwNlp)) %
      (job.env i).gTwNkp + (job.env i).gTwNlp = l := by
    rw [Nat.mul_comm, Nat.mul_add_mod, Nat.mod_eq_of_lt (by omega)]
    omega
  unfold twGetlocalLp
  rw [if_pos ⟨hvt, by omega⟩, hgid', Nat.add_sub_cancel_left, hmod, hlp, Option.join_some]

/-- The total that `tw_getlocal_lp` compares with is the one of all PEs. -/
def SameTotal (job : JobSetup npe) : Prop :=
  job.vtStats = true → job.protocol = .sequential → npe ≤ 1

instance (job : JobSetup npe) : Decidable job.SameTotal :=
  inferInstanceAs (Decidable (job.vtStats = true → job.protocol = .sequential → npe ≤ 1))

theorem gStTotalModelLps_eq (hsame : job.SameTotal) (hvt : job.vtStats = true) (i : Fin npe) :
    (job.env i).gStTotalModelLps = job.totalLps := by
  have htotal : (job.env i).gStTotalModelLps =
      if job.protocol ≠ .sequential then job.totalLps else (job.pe i).nlp := if_pos hvt
  rw [htotal]
  by_cases hp : job.protocol = .sequential
  · have hone := hsame hvt hp
    have hsub : ∀ j : Fin npe, j = i := fun j => Fin.ext (by omega)
    rw [if_neg (not_not.mpr hp), totalLps,
      Finset.sum_eq_single i (fun j _ hj => absurd (hsub j) hj)
        fun hi => absurd (Finset.mem_univ i) hi]
  · rw [if_pos hp]

/-- On a PE that takes its own LPs for all, the first LP of the PE is not found. -/
theorem sameTotal_of_looksUp (h : ∀ i, job.twDefineLps i = .ok (s i))
    (hup : ∀ i, job.LooksUp i (s i)) : job.SameTotal := by
  intro hvt hp
  by_contra hnpe
  have hlt : 1 < npe := by omega
  obtain ⟨hpos, hs⟩ := twDefineLps_ok (h ⟨1, hlt⟩)
  obtain ⟨kp, hkp⟩ := hs.filled 0 (Nat.lt_add_right _ hpos)
  have hlook := hup ⟨1, hlt⟩ 0 _ hkp
  have htotal : (job.env ⟨1, hlt⟩).gStTotalModelLps = (job.pe ⟨1, hlt⟩).nlp := by
    refine (if_pos hvt).trans (if_neg ?_)
    rw [hp]
    exact not_not.mpr rfl
  have hgid : (job.env ⟨1, hlt⟩).gidOf 0 = (job.pe ⟨1, hlt⟩).nlp := by
    refine (if_pos hpos).trans ?_
    exact Nat.one_mul _
  unfold twGetlocalLp at hlook
  dsimp only at hlook
  rw [if_pos ⟨hvt, by rw [htotal, hgid]⟩, Option.join_eq_some_iff] at hlook
  have hid := (slot_eq (h ⟨1, hlt⟩) hlook).2.2
  have hnlp : (job.env ⟨1, hlt⟩).gTwNlp = (job.pe ⟨1, hlt⟩).nlp := rfl
  dsimp only at hid
  omega

/-- The gids are a bijection and the LPs are found by them exactly when each PE's
first gid is the number of LPs of the PEs whose first gids are below, and a
sequential run with analysis LPs has one PE. -/
theorem linear_mapping_correct_iff (job : JobSetup npe) (s : Fin npe → MapArrays)
    (h : ∀ i, job.twDefineLps i = .ok (s i)) :
    (job.GidsBijective s ∧ ∀ i, job.LooksUp i (s i)) ↔
      Packed job.firstGid job.numLps ∧ job.SameTotal := by
  have hpos : ∀ i, 0 < job.numLps i := fun i => (twDefineLps_ok (h i)).1
  rw [gidsBijective_iff h, tiles_iff_packed hpos]
  constructor
  · rintro ⟨hp, hup⟩
    exact ⟨hp, sameTotal_of_looksUp h hup⟩
  · rintro ⟨hp, hsame⟩
    refine ⟨hp, fun i l lp hlp => ?_⟩
    by_cases hl : l < (job.pe i).nlp
    · refine twGetlocalLp_model (h i) hlp hl fun hvt => ?_
      rw [gStTotalModelLps_eq hsame hvt]
      exact (((gidsBijective_iff h).mpr hp.tiles).exact lp.gid).mp ⟨i, l, hl, lp, hlp, rfl⟩
    · exact twGetlocalLp_analysis (h i) hlp (not_lt.mp hl)

/-- The arrays of a PE, empty when the mapping stopped. -/
def arrays (job : JobSetup npe) (i : Fin npe) : MapArrays :=
  ((job.twDefineLps i).toOption).getD ⟨[], []⟩

/-- Three PEs of 2, 3 and 1 LPs: not equal, and right all the same. -/
theorem linear_mapping_correct_iff_unequal :
    ∃ (job : JobSetup 3) (s : Fin 3 → MapArrays), (∀ i, job.twDefineLps i = .ok (s i)) ∧
      job.vtStats = true ∧ job.GidsBijective s ∧ ∀ i, job.LooksUp i (s i) := by
  let job : JobSetup 3 := ⟨.optimistic, true, ![⟨2, 2, 1⟩, ⟨3, 2, 1⟩, ⟨1, 2, 1⟩]⟩
  have h : ∀ i, job.twDefineLps i = .ok (job.arrays i) := by decide +kernel
  have hcond : Packed job.firstGid job.numLps ∧ job.SameTotal := by decide +kernel
  exact ⟨job, job.arrays, h, rfl, (linear_mapping_correct_iff job job.arrays h).mpr hcond⟩

/-- With two LPs on PE 0 and three on PE 1 no LP has the gid 2. -/
theorem linear_mapping_leaves_gap :
    ∃ (job : JobSetup 2) (s : Fin 2 → MapArrays), (∀ i, job.twDefineLps i = .ok (s i)) ∧
      job.totalLps = 5 ∧ (∀ i l, ¬ job.HasGid s i l 2) ∧ ¬ job.GidsBijective s := by
  let job : JobSetup 2 := ⟨.optimistic, false, ![⟨2, 2, 1⟩, ⟨3, 2, 1⟩]⟩
  have h : ∀ i, job.twDefineLps i = .ok (job.arrays i) := by decide +kernel
  have hgap : ∀ i l, ¬ job.HasGid job.arrays i l 2 := by
    intro i l hg
    obtain ⟨hl, hgid⟩ := (hasGid_iff h).mp hg
    fin_cases i
    · have hl' : l < 2 := hl
      have hgid' : 2 = 0 + l := hgid
      omega
    · have hgid' : 2 = 3 + l := hgid
      omega
  refine ⟨job, job.arrays, h, by decide, hgap, fun hb => ?_⟩
  obtain ⟨i, l, hg⟩ := (hb.exact 2).mpr (by decide)
  exact hgap i l hg

end JobSetup

end Ross

import Ross.Proofs.LinearMapping

/-!
# The KPs of the LPs

Both mappings make KPs and LPs in turn and put each LP on a KP.  What they have done so far
is told by the number of KPs and of LPs made, the KP and the gid of each LP, and a KP
counts the LPs that are on it.
-/

namespace Ross

open Finset

namespace MapEnv

variable {env : MapEnv} {s s' : MapArrays} {kpOf lpGid : Nat → Nat} {k kps n g : Nat}

/-! ## The load of a KP -/

/-- How many of the first `n` LPs are on the KP `k`. -/
def kpLoad (kpOf : Nat → Nat) (n k : Nat) : Nat := ((range n).filter fun l => kpOf l = k).card

theorem kpLoad_eq_zero (h : ∀ l < n, kpOf l ≠ k) : kpLoad kpOf n k = 0 := by
  unfold kpLoad
  rw [card_eq_zero, filter_eq_empty_iff]
  exact fun l hl => h l (mem_range.mp hl)

theorem kpLoad_succ (kpOf : Nat → Nat) (n k : Nat) :
    kpLoad kpOf (n + 1) k = kpLoad kpOf n k + if kpOf n = k then 1 else 0 := by
  unfold kpLoad
  rw [range_add_one, filter_insert]
  split
  · rw [card_insert_of_notMem fun hmem => notMem_range_self (mem_filter.mp hmem).1]
  · rw [Nat.add_zero]

/-- The loads of all KPs together are the LPs. -/
theorem sum_kpLoad (h : ∀ l < n, kpOf l < g) : ∑ k ∈ range g, kpLoad kpOf n k = n := by
  have hmaps : Set.MapsTo kpOf (range n : Finset Nat) (range g : Finset Nat) :=
    fun l hl => mem_coe.mpr (mem_range.mpr (h l (mem_range.mp (mem_coe.mp hl))))
  have hcard := card_eq_sum_card_fiberwise hmaps
  rw [card_range] at hcard
  exact hcard.symm

/-! ## Arrays filled so far -/

/-- The first KPs and the first `n` LPs are made, each LP on its KP. -/
structure Assigned (env : MapEnv) (kpOf lpGid : Nat → Nat) (s : MapArrays) (kps n : Nat) :
    Prop where
  kpLength : s.gTwKp.length = env.gTwNkp
  lpLength : s.gTwLp.length = env.gTwNlp + env.gStAnalysisNlp
  kp : ∀ k, (s.gTwKp[k]?).join = if k < kps then some ⟨k, kpLoad kpOf n k⟩ else none
  lp : ∀ l, (s.gTwLp[l]?).join = if l < n then some ⟨lpGid l, l, some (kpOf l)⟩ else none

theorem assigned_arrays0 (env : MapEnv) (kpOf lpGid : Nat → Nat) :
    Assigned env kpOf lpGid env.arrays0 0 0 := by
  refine ⟨List.length_replicate, List.length_replicate, fun k => ?_, fun l => ?_⟩
  · unfold arrays0
    rw [if_neg (Nat.not_lt_zero k), List.getElem?_replicate]
    split <;> rfl
  · unfold arrays0
    rw [if_neg (Nat.not_lt_zero l), List.getElem?_replicate]
    split <;> rfl

theorem Assigned.twKpOnpe (h : Assigned env kpOf lpGid s kps n) (hk : kps < env.gTwNkp) :
    env.twKpOnpe kps s = .ok { s with gTwKp := s.gTwKp.set kps (some ⟨kps, 0⟩) } := by
  unfold MapEnv.twKpOnpe
  rw [if_neg (not_le.mpr hk), h.kp, if_neg (lt_irrefl kps)]

/-- An LP is made once. -/
theorem Assigned.twLpOnpe_again (h : Assigned env kpOf lpGid s kps n) {l gid : Nat} (hl : l < n)
    (hn : l < env.gTwNlp) : env.twLpOnpe l gid s = .error .lpAllocated := by
  unfold MapEnv.twLpOnpe
  rw [if_neg (by omega), h.lp, if_pos hl]

/-- The next KP has no LP yet. -/
theorem Assigned.addKp (h : Assigned env kpOf lpGid s kps n) (hk : kps < env.gTwNkp)
    (hfresh : ∀ l < n, kpOf l ≠ kps) :
    Assigned env kpOf lpGid { s with gTwKp := s.gTwKp.set kps (some ⟨kps, 0⟩) } (kps + 1) n := by
  refine ⟨?_, h.lpLength, fun k => ?_, h.lp⟩
  · rw [List.length_set, h.kpLength]
  · by_cases hkk : k = kps
    · subst hkk
      rw [List.getElem?_set_self (by rw [h.kpLength]; exact hk), if_pos (Nat.lt_succ_self k),
        kpLoad_eq_zero hfresh]
      rfl
    · rw [List.getElem?_set_ne (Ne.symm hkk), h.kp]
      refine if_congr ?_ rfl rfl
      omega

theorem Assigned.twLpOnpe (h : Assigned env kpOf lpGid s kps n) (hn : n < env.gTwNlp)
    (gid : Nat) :
    env.twLpOnpe n gid s = .ok { s with gTwLp := s.gTwLp.set n (some ⟨gid, n, none⟩) } := by
  unfold MapEnv.twLpOnpe
  rw [if_neg (by omega), h.lp, if_neg (lt_irrefl n)]

theorem Assigned.twLpOnkp (h : Assigned env kpOf lpGid s kps n) (hn : n < env.gTwNlp)
    (hk : k < kps) (gid : Nat) :
    twLpOnkp n k { s with gTwLp := s.gTwLp.set n (some ⟨gid, n, none⟩) } =
      .ok ⟨s.gTwKp.set k (some ⟨k, kpLoad kpOf n k + 1⟩),
        s.gTwLp.set n (some ⟨gid, n, some k⟩)⟩ := by
  have hlen : n < s.gTwLp.length := by
    rw [h.lpLength]
    omega
  unfold MapEnv.twLpOnkp
  dsimp only
  rw [List.getElem?_set_self hlen, Option.join_some]
  dsimp only
  rw [h.kp, if_pos hk]
  dsimp only
  rw [List.set_set]

/-- The next LP comes on its KP. -/
theorem Assigned.addLp (h : Assigned env kpOf lpGid s kps n) (hn : n < env.gTwNlp)
    (hk : kpOf n < kps) :
    Assigned env kpOf lpGid ⟨s.gTwKp.set (kpOf n) (some ⟨kpOf n, kpLoad kpOf n (kpOf n) + 1⟩),
      s.gTwLp.set n (some ⟨lpGid n, n, some (kpOf n)⟩)⟩ kps (n + 1) := by
  have hlen : n < s.gTwLp.length := by
    rw [h.lpLength]
    omega
  have hklen : kpOf n < s.gTwKp.length := by
    by_contra hge
    have hkp := h.kp (kpOf n)
    rw [List.getElem?_eq_none (not_lt.mp hge), if_pos hk] at hkp
    cases hkp
  refine ⟨?_, ?_, fun k => ?_, fun l => ?_⟩
  · rw [List.length_set, h.kpLength]
  · rw [List.length_set, h.lpLength]
  · rw [kpLoad_succ]
    by_cases hkk : kpOf n = k
    · subst hkk
      rw [List.getElem?_set_self hklen, if_pos hk, if_pos rfl]
      rfl
    · rw [List.getElem?_set_ne hkk, h.kp, if_neg hkk, Nat.add_zero]
  · by_cases hln : l = n
    · subst hln
      rw [List.getElem?_set_self hlen, if_pos (Nat.lt_succ_self l)]
      rfl
    · rw [List.getElem?_set_ne (Ne.symm hln), h.lp]
      refine if_congr ?_ rfl rfl
      omega

theorem Assigned.mapLp_ok (h : Assigned env kpOf lpGid s kps n) (hn : n < env.gTwNlp)
    (hk : kpOf n < kps) :
    ∃ s', env.mapLp n (lpGid n) (kpOf n) s = .ok s' ∧ Assigned env kpOf lpGid s' kps (n + 1) := by
  refine ⟨_, ?_, h.addLp hn hk⟩
  unfold MapEnv.mapLp
  rw [h.twLpOnpe hn]
  exact h.twLpOnkp hn hk _

/-! ## The linear mapping -/

/-- The gids that `map_linear` gives. -/
def linearGid (env : MapEnv) (l : Nat) : Nat := env.gTwLpOffset + l

/-- The inner loop puts the next LPs on one KP, while there are any. -/
theorem lpLoop_assigned (j : Nat) {lpid : Nat} (h : Assigned env kpOf env.linearGid s kps lpid)
    (hk : k < kps) (hle : lpid ≤ env.gTwNlp)
    (hkp : ∀ l, lpid ≤ l → l < lpid + j → l < env.gTwNlp → kpOf l = k) :
    ∃ s', env.lpLoop k j lpid s = .ok (min env.gTwNlp (lpid + j), s') ∧
      Assigned env kpOf env.linearGid s' kps (min env.gTwNlp (lpid + j)) := by
  induction j generalizing lpid s with
  | zero =>
      rw [Nat.add_zero, min_eq_right hle]
      exact ⟨s, rfl, h⟩
  | succ j ih =>
      unfold lpLoop
      by_cases hlt : lpid < env.gTwNlp
      · have hkn : kpOf lpid = k := hkp lpid le_rfl (by omega) hlt
        obtain ⟨s₁, hrun, h₁⟩ := h.mapLp_ok hlt (by rw [hkn]; exact hk)
        rw [hkn] at hrun
        obtain ⟨s', hrun', h'⟩ := ih h₁ hlt fun l hl hl' => hkp l (by omega) (by omega)
        rw [show lpid + 1 + j = lpid + (j + 1) by omega] at hrun' h'
        refine ⟨s', ?_, h'⟩
        rw [if_pos hlt]
        unfold linearGid at hrun
        rw [hrun]
        exact hrun'
      · rw [if_neg hlt, min_eq_left (by omega)]
        obtain rfl : lpid = env.gTwNlp := by omega
        exact ⟨s, rfl, h⟩

/-- The KP of an LP under the linear mapping. -/
def linearKp (env : MapEnv) (l : Nat) : Nat := l / env.nlpPerKp

/-- How many LPs the first KPs take. -/
def lpsOfKps (env : MapEnv) (kps : Nat) : Nat := min env.gTwNlp (kps * env.nlpPerKp)

/-- A turn of the outer loop makes the next KP with its LPs. -/
theorem kpLoop_step (m : Nat) (hkps : kps < env.gTwNkp)
    (h : Assigned env env.linearKp env.linearGid s kps (env.lpsOfKps kps)) :
    ∃ s', env.kpLoop (m + 1) kps (env.lpsOfKps kps) s =
        env.kpLoop m (kps + 1) (env.lpsOfKps (kps + 1)) s' ∧
      Assigned env env.linearKp env.linearGid s' (kps + 1) (env.lpsOfKps (kps + 1)) := by
  have hmul : (kps + 1) * env.nlpPerKp = kps * env.nlpPerKp + env.nlpPerKp := Nat.succ_mul _ _
  have hnext : min env.gTwNlp (env.lpsOfKps kps + env.nlpPerKp) = env.lpsOfKps (kps + 1) := by
    unfold lpsOfKps
    rw [hmul]
    omega
  have hfresh : ∀ l < env.lpsOfKps kps, env.linearKp l ≠ kps := by
    intro l hl
    refine (Nat.div_lt_of_lt_mul ?_).ne
    rw [Nat.mul_comm]
    exact hl.trans_le (min_le_right _ _)
  have hkp : ∀ l, env.lpsOfKps kps ≤ l → l < env.lpsOfKps kps + env.nlpPerKp →
      l < env.gTwNlp → env.linearKp l = kps := by
    intro l hl hl' hn
    unfold lpsOfKps at hl hl'
    exact Nat.div_eq_of_lt_le (by omega) (by omega)
  obtain ⟨s', hrun, h'⟩ := lpLoop_assigned env.nlpPerKp (h.addKp hkps hfresh) (Nat.lt_succ_self kps)
    (min_le_left _ _) hkp
  rw [hnext] at hrun h'
  refine ⟨s', ?_, h'⟩
  rw [kpLoop, h.twKpOnpe hkps]
  dsimp only
  rw [hrun]

/-- The outer loop makes KPs while the array has room for them. -/
theorem kpLoop_assigned (m : Nat) (hle : kps + m ≤ env.gTwNkp)
    (h : Assigned env env.linearKp env.linearGid s kps (env.lpsOfKps kps)) :
    ∃ s', env.kpLoop m kps (env.lpsOfKps kps) s = .ok s' ∧
      Assigned env env.linearKp env.linearGid s' (kps + m) (env.lpsOfKps (kps + m)) := by
  induction m generalizing kps s with
  | zero => exact ⟨s, rfl, h⟩
  | succ m ih =>
      obtain ⟨s₁, hstep, h₁⟩ := kpLoop_step m (by omega) h
      obtain ⟨s', hrun, h'⟩ := ih (by omega) h₁
      rw [show kps + 1 + m = kps + (m + 1) by omega] at h'
      exact ⟨s', hstep.trans hrun, h'⟩

/-- It stops at a KP that the array has no room for. -/
theorem kpLoop_maxKps (m : Nat) (hle : kps ≤ env.gTwNkp) (hlt : env.gTwNkp < kps + m)
    (h : Assigned env env.linearKp env.linearGid s kps (env.lpsOfKps kps)) :
    env.kpLoop m kps (env.lpsOfKps kps) s = .error .maxKps := by
  induction m generalizing kps s with
  | zero => omega
  | succ m ih =>
      by_cases hkps : kps < env.gTwNkp
      · obtain ⟨s₁, hstep, h₁⟩ := kpLoop_step m hkps h
        exact hstep.trans (ih hkps (by omega) h₁)
      · unfold kpLoop MapEnv.twKpOnpe
        rw [if_pos (not_lt.mp hkps)]

/-- Every KP is there, every LP of the PE is on one of them, a KP counts the LPs that are
on it, and the counts add up to the LPs. -/
structure AllOnKps (env : MapEnv) (s : MapArrays) : Prop where
  kps : ∀ k < env.gTwNkp, ∃ kp, s.gTwKp[k]? = some (some kp)
  lps : ∀ l < env.gTwNlp, ∃ lp k, s.gTwLp[l]? = some (some lp) ∧ lp.kp = some k ∧ k < env.gTwNkp
  counts : ∀ (k : Nat) (kp : KpSlot), s.gTwKp[k]? = some (some kp) → kp.lpCount =
    ((range env.gTwNlp).filter fun l => (s.gTwLp[l]?).join.bind LpSlot.kp = some k).card
  total : ∑ k ∈ range env.gTwNkp, (((s.gTwKp[k]?).join.map KpSlot.lpCount).getD 0) = env.gTwNlp

theorem Assigned.allOnKps (h : Assigned env kpOf lpGid s env.gTwNkp env.gTwNlp)
    (hkp : ∀ l < env.gTwNlp, kpOf l < env.gTwNkp) : AllOnKps env s := by
  have hslot : ∀ k < env.gTwNkp, s.gTwKp[k]? = some (some ⟨k, kpLoad kpOf env.gTwNlp k⟩) := by
    intro k hk
    have hjoin := h.kp k
    rw [if_pos hk, Option.join_eq_some_iff] at hjoin
    exact hjoin
  have hlp : ∀ l < env.gTwNlp, s.gTwLp[l]? = some (some ⟨lpGid l, l, some (kpOf l)⟩) := by
    intro l hl
    have hjoin := h.lp l
    rw [if_pos hl, Option.join_eq_some_iff] at hjoin
    exact hjoin
  refine ⟨fun k hk => ⟨_, hslot k hk⟩, fun l hl => ⟨_, kpOf l, hlp l hl, rfl, hkp l hl⟩,
    fun k kp hk => ?_, ?_⟩
  · have hlt : k < env.gTwNkp := by
      rw [← h.kpLength]
      exact (List.getElem?_eq_some_iff.mp hk).1
    rw [hslot k hlt, Option.some.injEq, Option.some.injEq] at hk
    subst hk
    dsimp only
    unfold kpLoad
    congr 1
    refine filter_congr fun l hl => ?_
    rw [hlp l (mem_range.mp hl)]
    simp
  · rw [← sum_kpLoad hkp]
    refine sum_congr rfl fun k hk => ?_
    rw [hslot k (mem_range.mp hk)]
    rfl

theorem nlpPerKp_pos (hn : 1 ≤ env.gTwNlp) (hk : 1 ≤ env.gTwNkp) : 0 < env.nlpPerKp :=
  Nat.div_pos (by omega) (by omega)

theorem le_mul_nlpPerKp (hk : 1 ≤ env.gTwNkp) : env.gTwNlp ≤ env.gTwNkp * env.nlpPerKp := by
  have hmod := Nat.div_add_mod (env.gTwNlp + env.gTwNkp - 1) env.gTwNkp
  have hlt := Nat.mod_lt (env.gTwNlp + env.gTwNkp - 1) (show env.gTwNkp > 0 by omega)
  unfold nlpPerKp
  omega

/-- `map_linear` puts every LP on a KP and makes every KP just if the array has one entry
for each turn of its loop, and the quotient fits an `int`. -/
theorem mapLinear_allOnKps_iff (hn : 1 ≤ env.gTwNlp) :
    (∃ s, env.mapLinear env.arrays0 = .ok s ∧ AllOnKps env s) ↔
      1 ≤ env.gTwNkp ∧ env.gTwNkp = env.nkpPerPe ∧ env.nlpPerKp < 2147483648 := by
  have hzero : env.lpsOfKps 0 = 0 := by
    unfold lpsOfKps
    omega
  have hstart : Assigned env env.linearKp env.linearGid env.arrays0 0 (env.lpsOfKps 0) := by
    rw [hzero]
    exact assigned_arrays0 env _ _
  unfold mapLinear
  by_cases hrange : env.gTwNkp = 0 ∨ 2147483648 ≤ env.nlpPerKp
  · rw [if_pos hrange]
    refine iff_of_false (fun ⟨s, h, _⟩ => by cases h) ?_
    omega
  · rw [if_neg hrange]
    obtain ⟨hk, hsmall⟩ := not_or.mp hrange
    have hpos := nlpPerKp_pos hn (show 1 ≤ env.gTwNkp by omega)
    rw [if_neg hpos.ne']
    by_cases hle : env.nkpPerPe ≤ env.gTwNkp
    · obtain ⟨s', hrun, h'⟩ := kpLoop_assigned env.nkpPerPe (by omega) hstart
      rw [hzero] at hrun
      rw [Nat.zero_add] at h'
      rw [hrun]
      dsimp only
      constructor
      · rintro ⟨s, hs, hall⟩
        refine ⟨by omega, ?_, by omega⟩
        have hss : s' = s := by
          split at hs
          · cases hs
          · split at hs
            · cases hs
            · exact Except.ok.inj hs
        subst hss
        by_contra hne
        obtain ⟨kp, hkp⟩ := hall.kps env.nkpPerPe (by omega)
        have hjoin := h'.kp env.nkpPerPe
        rw [hkp, if_neg (lt_irrefl _)] at hjoin
        cases hjoin
      · rintro ⟨hk1, heq, -⟩
        have hfull : env.lpsOfKps env.nkpPerPe = env.gTwNlp := by
          unfold lpsOfKps
          rw [← heq]
          exact min_eq_left (le_mul_nlpPerKp hk1)
        rw [hfull, ← heq] at h'
        refine ⟨s', ?_, h'.allOnKps fun l hl => ?_⟩
        · rw [h'.lp, if_pos (by omega)]
          dsimp only
          rw [if_neg]
          unfold linearGid
          omega
        · unfold linearKp
          refine Nat.div_lt_of_lt_mul ?_
          rw [Nat.mul_comm]
          exact hl.trans_le (le_mul_nlpPerKp hk1)
    · have herr := kpLoop_maxKps env.nkpPerPe (Nat.zero_le _) (by omega) hstart
      rw [hzero] at herr
      rw [herr]
      refine iff_of_false (fun ⟨s, h, _⟩ => by cases h) ?_
      omega

/-! ## The round-robin mapping -/

/-- The KP of an LP under the round-robin mapping, and its gid. -/
def roundRobinKp (env : MapEnv) (l : Nat) : Nat := l % env.gTwNkp

def roundRobinGid (env : MapEnv) (nnodes l : Nat) : Nat := env.gTwMynode + l * nnodes

variable {nnodes : Nat}

/-- A turn makes an LP and a KP of the same number, while the array has room for the KP. -/
theorem roundRobinLoop_step (m : Nat) (hn : n < env.gTwNlp) (hg : n < env.gTwNkp)
    (h : Assigned env env.roundRobinKp (env.roundRobinGid nnodes) s n n) :
    ∃ s', env.roundRobinLoop nnodes (m + 1) n (env.roundRobinGid nnodes n) s =
        env.roundRobinLoop nnodes m ((n + 1) % 4294967296) (env.roundRobinGid nnodes (n + 1)) s' ∧
      Assigned env env.roundRobinKp (env.roundRobinGid nnodes) s' (n + 1) (n + 1) := by
  have hkp : env.roundRobinKp n = n := Nat.mod_eq_of_lt hg
  have hfresh : ∀ l < n, env.roundRobinKp l ≠ n := by
    intro l hl
    rw [roundRobinKp, Nat.mod_eq_of_lt (hl.trans hg)]
    exact hl.ne
  have h₁ := h.addKp hg hfresh
  have h₂ := h₁.addLp hn (by rw [hkp]; exact Nat.lt_succ_self n)
  refine ⟨_, ?_, h₂⟩
  have hgid : env.roundRobinGid nnodes n + nnodes = env.roundRobinGid nnodes (n + 1) := by
    unfold roundRobinGid
    rw [Nat.succ_mul, Nat.add_assoc]
  have hlp := h.twLpOnpe hn (env.roundRobinGid nnodes n)
  have hkponpe : ∀ lps, env.twKpOnpe n { s with gTwLp := lps } =
      .ok ⟨s.gTwKp.set n (some ⟨n, 0⟩), lps⟩ := by
    intro lps
    unfold MapEnv.twKpOnpe
    dsimp only
    rw [if_neg (not_le.mpr hg), h.kp, if_neg (lt_irrefl n)]
  have hon := h₁.twLpOnkp hn (Nat.lt_succ_self n) (env.roundRobinGid nnodes n)
  rw [roundRobinLoop, if_pos hn, hlp]
  dsimp only
  rw [show n % env.gTwNkp = n from hkp, hkponpe]
  dsimp only at hon ⊢
  rw [hon, hgid]
  dsimp only
  rw [hkp]

theorem roundRobinLoop_run (d m : Nat) (hn : n + d ≤ env.gTwNlp) (hg : n + d ≤ env.gTwNkp)
    (h32 : n + d ≤ 4294967296)
    (h : Assigned env env.roundRobinKp (env.roundRobinGid nnodes) s n n) :
    ∃ s', env.roundRobinLoop nnodes (m + d) (n % 4294967296) (env.roundRobinGid nnodes n) s =
        env.roundRobinLoop nnodes m ((n + d) % 4294967296) (env.roundRobinGid nnodes (n + d)) s' ∧
      Assigned env env.roundRobinKp (env.roundRobinGid nnodes) s' (n + d) (n + d) := by
  induction d generalizing n s with
  | zero => exact ⟨s, rfl, h⟩
  | succ d ih =>
      obtain ⟨s₁, hstep, h₁⟩ := roundRobinLoop_step (m + d) (show n < env.gTwNlp by omega)
        (show n < env.gTwNkp by omega) h
      obtain ⟨s', hrun, h'⟩ := ih (by omega) (by omega) (by omega) h₁
      rw [show n + 1 + d = n + (d + 1) by omega] at hrun h'
      refine ⟨s', ?_, h'⟩
      rw [Nat.mod_eq_of_lt (show n < 4294967296 by omega)]
      exact hstep.trans hrun

theorem mapRoundRobin_start (env : MapEnv) (nnodes d m : Nat) (hd : m + d = env.gTwNlp + 1)
    (hn : d ≤ env.gTwNlp) (hg : d ≤ env.gTwNkp) (h32 : d ≤ 4294967296) :
    ∃ s, env.mapRoundRobin nnodes env.arrays0 =
        env.roundRobinLoop nnodes m (d % 4294967296) (env.roundRobinGid nnodes d) s ∧
      Assigned env env.roundRobinKp (env.roundRobinGid nnodes) s d d := by
  obtain ⟨s, hrun, h⟩ := roundRobinLoop_run d m (by omega) (by omega) (by omega)
    (assigned_arrays0 env env.roundRobinKp (env.roundRobinGid nnodes))
  rw [Nat.zero_add] at hrun h
  refine ⟨s, ?_, h⟩
  rw [← hrun, hd]
  unfold mapRoundRobin roundRobinGid
  simp only [Nat.zero_mul, Nat.add_zero, Nat.zero_mod]

/-- With a KP for every LP each LP has its own. -/
theorem mapRoundRobin_ok (env : MapEnv) (nnodes : Nat) (hg : env.gTwNlp ≤ env.gTwNkp)
    (h32 : env.gTwNlp < 4294967296) :
    ∃ s, env.mapRoundRobin nnodes env.arrays0 = .ok s ∧
      Assigned env env.roundRobinKp (env.roundRobinGid nnodes) s env.gTwNlp env.gTwNlp := by
  obtain ⟨s, hrun, h⟩ := mapRoundRobin_start env nnodes env.gTwNlp 1 (by omega) le_rfl hg h32.le
  refine ⟨s, ?_, h⟩
  rw [hrun, Nat.mod_eq_of_lt h32, roundRobinLoop, if_neg (lt_irrefl _)]

/-- With fewer, the first KP that is used again stops the mapping; with `2 ^ 32` LPs or
more, the counter that comes round. -/
theorem mapRoundRobin_stops (env : MapEnv) (nnodes : Nat) (hk : 1 ≤ env.gTwNkp)
    (hmany : env.gTwNkp < env.gTwNlp ∨ 4294967296 ≤ env.gTwNlp) :
    env.mapRoundRobin nnodes env.arrays0 = .error .kpAllocated ∨
      env.mapRoundRobin nnodes env.arrays0 = .error .lpAllocated := by
  by_cases hfirst : env.gTwNkp < 4294967296 ∧ env.gTwNkp < env.gTwNlp
  · left
    obtain ⟨s, hrun, h⟩ := mapRoundRobin_start env nnodes env.gTwNkp
      (env.gTwNlp - env.gTwNkp + 1) (by omega) (by omega) le_rfl (by omega)
    have hagain : ∀ lps, env.twKpOnpe (env.gTwNkp % env.gTwNkp) { s with gTwLp := lps } =
        .error .kpAllocated := by
      intro lps
      unfold MapEnv.twKpOnpe
      dsimp only
      rw [Nat.mod_self, if_neg (by omega), h.kp, if_pos (show 0 < env.gTwNkp by omega)]
    rw [hrun, Nat.mod_eq_of_lt hfirst.1, roundRobinLoop, if_pos hfirst.2,
      h.twLpOnpe hfirst.2]
    dsimp only
    rw [hagain]
  · right
    obtain ⟨s, hrun, h⟩ := mapRoundRobin_start env nnodes 4294967296
      (env.gTwNlp - 4294967296 + 1) (by omega) (by omega) (by omega) le_rfl
    rw [hrun, Nat.mod_self, roundRobinLoop, if_pos (by omega),
      h.twLpOnpe_again (show 0 < 4294967296 by omega) (by omega)]

end MapEnv

/-! ## What `tw_define_lps` hands to `map_linear` -/

namespace JobSetup

open MapEnv

variable {npe : Nat}

/-- `map_linear` makes all KPs, and puts the LPs on them, just if `--nkp` is at least 1 and
the application has set `g_tw_nkp` to the same number or left it at 1, which only
`OPTIMISTIC_DEBUG` does not replace, and the LPs of a KP fit an `int`. -/
theorem map_linear_kps_iff (job : JobSetup npe) (i : Fin npe) (hn : 1 ≤ (job.pe i).nlp) :
    (∃ s, (job.env i).mapLinear (job.env i).arrays0 = .ok s ∧ AllOnKps (job.env i) s) ↔
      1 ≤ (job.pe i).nkpPerPe ∧
        ((job.pe i).gTwNkp = (job.pe i).nkpPerPe ∨
          (job.pe i).gTwNkp = 1 ∧ job.protocol ≠ .optimisticDebug) ∧
        (job.pe i).nlp ≤ 2147483647 * (job.pe i).nkpPerPe := by
  rw [mapLinear_allOnKps_iff hn, ← and_assoc, ← and_assoc]
  have hg : (job.env i).gTwNkp = job.gTwNkp i := rfl
  have hk : (job.env i).nkpPerPe = (job.pe i).nkpPerPe := rfl
  have hcond : 1 ≤ (job.env i).gTwNkp ∧ (job.env i).gTwNkp = (job.env i).nkpPerPe ↔
      1 ≤ (job.pe i).nkpPerPe ∧ ((job.pe i).gTwNkp = (job.pe i).nkpPerPe ∨
        (job.pe i).gTwNkp = 1 ∧ job.protocol ≠ .optimisticDebug) := by
    rw [hg, hk, JobSetup.gTwNkp]
    by_cases hp : job.protocol = .optimisticDebug
    · simp only [hp, ne_eq, not_true_eq_false, and_false, if_false, or_false]
      split <;> omega
    · simp only [hp, ne_eq, not_false_eq_true, and_true]
      split <;> split <;> omega
  rw [hcond]
  refine and_congr_right fun hmade => ?_
  have hsame := (hcond.mpr hmade).2
  unfold nlpPerKp
  rw [Nat.div_lt_iff_lt_mul (by omega), hsame, hk]
  have hl : (job.env i).gTwNlp = (job.pe i).nlp := rfl
  omega

/-- One PE. -/
def onePe (nlp nkpPerPe gTwNkp : Nat) : JobSetup 1 :=
  ⟨.optimistic, false, fun _ => ⟨nlp, nkpPerPe, gTwNkp⟩⟩

/-- Five LPs on the 16 KPs that `--nkp` has by default. -/
theorem map_linear_kps_iff_default : ∃ s, ((onePe 5 16 1).env 0).mapLinear
    ((onePe 5 16 1).env 0).arrays0 = .ok s ∧ AllOnKps ((onePe 5 16 1).env 0) s :=
  (map_linear_kps_iff (onePe 5 16 1) 0 (by decide)).mpr (by decide)

/-- `--nkp=0` comes back after the adjustment, and an application that wants 4 or 32 KPs has
16 made. -/
theorem map_linear_stops :
    (∀ s, ((onePe 5 0 1).env 0).mapLinear ((onePe 5 0 1).env 0).arrays0 ≠ .ok s) ∧
      ((onePe 5 16 4).env 0).mapLinear ((onePe 5 16 4).env 0).arrays0 = .error .maxKps ∧
      ((onePe 40 16 32).env 0).mapLinear ((onePe 40 16 32).env 0).arrays0 =
        .error .notAllLps := by
  have hzero : ((onePe 5 0 1).env 0).mapLinear ((onePe 5 0 1).env 0).arrays0 =
      .error .quotientRange := by
    decide +kernel
  refine ⟨fun s hs => ?_, by decide +kernel, by decide +kernel⟩
  rw [hzero] at hs
  cases hs

/-! ## Round robin on all PEs -/

variable {job : JobSetup npe} {s : Fin npe → MapArrays} {nlp : Nat}

/-- Every LP is on one KP and every KP that can have one has an LP, the gids of all PEs are
those below the total, and `tw_getlocal_lp` finds each LP by its gid. -/
structure RoundRobinMapped (job : JobSetup npe) (s : Fin npe → MapArrays) : Prop where
  onKp : ∀ i, ∀ l < (job.pe i).nlp, ∃ (lp : LpSlot) (k : Nat) (kp : KpSlot),
    (s i).gTwLp[l]? = some (some lp) ∧
    lp.kp = some k ∧ (s i).gTwKp[k]? = some (some kp)
  used : ∀ i, ∀ k < min (job.gTwNkp i) (job.pe i).nlp, ∃ (l : Nat) (lp : LpSlot),
    (s i).gTwLp[l]? = some (some lp) ∧ lp.kp = some k
  gids : job.GidsBijective s
  looksUp : ∀ i (l : Nat) (lp : LpSlot), (s i).gTwLp[l]? = some (some lp) →
    (job.env i).twGetlocalLpRoundRobin npe (s i) lp.gid = some lp

/-- The arrays of all PEs after `map_round_robin`. -/
def RoundRobinArrays (job : JobSetup npe) (s : Fin npe → MapArrays) : Prop :=
  ∀ i, Assigned (job.env i) (job.env i).roundRobinKp ((job.env i).roundRobinGid npe) (s i)
    (job.pe i).nlp (job.pe i).nlp

theorem RoundRobinArrays.slot_iff (h : job.RoundRobinArrays s) {i : Fin npe} {l : Nat}
    {lp : LpSlot} : (s i).gTwLp[l]? = some (some lp) ↔ l < (job.pe i).nlp ∧
      lp = ⟨(job.env i).roundRobinGid npe l, l, some ((job.env i).roundRobinKp l)⟩ := by
  rw [← Option.join_eq_some_iff, (h i).lp]
  by_cases hl : l < (job.pe i).nlp
  · rw [if_pos hl, Option.some.injEq, and_iff_right hl, eq_comm]
  · rw [if_neg hl]
    simp [hl]

theorem RoundRobinArrays.hasGid_iff (h : job.RoundRobinArrays s) {i : Fin npe} {l gid : Nat} :
    job.HasGid s i l gid ↔ l < (job.pe i).nlp ∧ gid = i + l * npe := by
  constructor
  · rintro ⟨hl, lp, hlp, rfl⟩
    rw [(h.slot_iff.mp hlp).2]
    exact ⟨hl, rfl⟩
  · rintro ⟨hl, rfl⟩
    exact ⟨hl, _, h.slot_iff.mpr ⟨hl, rfl⟩, rfl⟩

theorem gid_div (i : Fin npe) (l : Nat) : (i + l * npe) / npe = l ∧ (i + l * npe) % npe = i := by
  have hpos : 0 < npe := Fin.pos i
  rw [Nat.add_mul_div_right _ _ hpos, Nat.add_mul_mod_self_right, Nat.div_eq_of_lt i.isLt,
    Nat.mod_eq_of_lt i.isLt]
  exact ⟨Nat.zero_add l, rfl⟩

theorem totalLps_eq (hsame : ∀ i, (job.pe i).nlp = nlp) : job.totalLps = npe * nlp := by
  unfold totalLps
  rw [sum_congr rfl fun i _ => hsame i, sum_const, card_univ, Fintype.card_fin, Nat.nsmul_eq_mul]

theorem RoundRobinArrays.gidsBijective (h : job.RoundRobinArrays s)
    (hsame : ∀ i, (job.pe i).nlp = nlp) : job.GidsBijective s := by
  refine ⟨fun i j l m gid hi hj => ?_, fun gid => ?_⟩
  · have hgi := (h.hasGid_iff.mp hi).2
    have hgj := (h.hasGid_iff.mp hj).2
    obtain ⟨hdi, hmi⟩ := gid_div i l
    obtain ⟨hdj, hmj⟩ := gid_div j m
    rw [← hgi] at hdi hmi
    rw [← hgj] at hdj hmj
    exact ⟨Fin.ext (hmi.symm.trans hmj), hdi.symm.trans hdj⟩
  · rw [totalLps_eq hsame]
    constructor
    · rintro ⟨i, l, hg⟩
      obtain ⟨hl, rfl⟩ := h.hasGid_iff.mp hg
      rw [hsame i] at hl
      calc i + l * npe < npe + l * npe := Nat.add_lt_add_right i.isLt _
        _ = (l + 1) * npe := by rw [Nat.succ_mul, Nat.add_comm]
        _ ≤ nlp * npe := Nat.mul_le_mul_right npe hl
        _ = npe * nlp := Nat.mul_comm _ _
    · intro hlt
      have hpos : 0 < npe := Nat.pos_of_mul_pos_right (Nat.zero_lt_of_lt hlt)
      refine ⟨⟨gid % npe, Nat.mod_lt _ hpos⟩, gid / npe, h.hasGid_iff.mpr ⟨?_, ?_⟩⟩
      · rw [hsame]
        exact Nat.div_lt_of_lt_mul hlt
      · exact (Nat.mod_add_div' gid npe).symm

/-- The LPs are found when the gids of the analysis LPs begin behind all. -/
theorem RoundRobinArrays.looksUp (h : job.RoundRobinArrays s)
    (hsame : ∀ i, (job.pe i).nlp = nlp) (htotal : job.SameTotal) (i : Fin npe) {l : Nat}
    {lp : LpSlot} (hlp : (s i).gTwLp[l]? = some (some lp)) :
    (job.env i).twGetlocalLpRoundRobin npe (s i) lp.gid = some lp := by
  obtain ⟨hl, rfl⟩ := h.slot_iff.mp hlp
  have hgid : (job.env i).roundRobinGid npe l = i + l * npe := rfl
  have hbelow : i + l * npe < job.totalLps :=
    ((h.gidsBijective hsame).exact _).mp ⟨i, l, h.hasGid_iff.mpr ⟨hl, rfl⟩⟩
  unfold twGetlocalLpRoundRobin
  dsimp only
  rw [if_neg, hgid, (gid_div i l).1, hlp, Option.join_some]
  · rfl
  · rintro ⟨hvt, hle⟩
    rw [gStTotalModelLps_eq htotal hvt, hgid] at hle
    omega

/-- On a PE that takes its own LPs for all, the last LP is not found. -/
theorem RoundRobinArrays.sameTotal (h : job.RoundRobinArrays s)
    (hsame : ∀ i, (job.pe i).nlp = nlp) (hn : 1 ≤ nlp)
    (hup : ∀ i (l : Nat) (lp : LpSlot), (s i).gTwLp[l]? = some (some lp) →
      (job.env i).twGetlocalLpRoundRobin npe (s i) lp.gid = some lp) : job.SameTotal := by
  intro hvt hp
  by_contra hnpe
  have hlt : 1 < npe := by omega
  obtain ⟨i, hi⟩ : ∃ i : Fin npe, (i : Nat) = 1 := ⟨⟨1, hlt⟩, rfl⟩
  have hslot := h.slot_iff.mpr ⟨show nlp - 1 < (job.pe i).nlp by rw [hsame]; omega, rfl⟩
  have hlook := hup i (nlp - 1) _ hslot
  have hmodel : (job.env i).gStTotalModelLps = nlp := by
    have hown : (job.env i).gStTotalModelLps = (job.pe i).nlp := by
      refine (if_pos hvt).trans (if_neg ?_)
      rw [hp]
      exact not_not.mpr rfl
    rw [hown, hsame]
  have hgid : (job.env i).roundRobinGid npe (nlp - 1) = 1 + (nlp - 1) * npe := by
    rw [← hi]
    rfl
  have hle : nlp ≤ 1 + (nlp - 1) * npe := by
    have hmul := Nat.mul_le_mul_left (nlp - 1) hlt.le
    omega
  have hnlp : (job.env i).gTwNlp = nlp := hsame i
  unfold twGetlocalLpRoundRobin at hlook
  dsimp only at hlook
  rw [hgid, if_pos ⟨hvt, by rw [hmodel]; exact hle⟩, (h i).lp, hsame, hnlp,
    if_neg (by omega)] at hlook
  cases hlook

/-- `map_round_robin` does what it should on all PEs just if every PE has a KP for each of
its LPs, the LPs can be counted in 32 bits, and a sequential run with analysis LPs has one
PE. -/
theorem map_round_robin_iff (job : JobSetup npe) (nlp : Nat) (hn : 1 ≤ nlp)
    (hsame : ∀ i, (job.pe i).nlp = nlp) (hk : ∀ i, 1 ≤ job.gTwNkp i) :
    (∃ s : Fin npe → MapArrays,
      (∀ i, (job.env i).mapRoundRobin npe (job.env i).arrays0 = .ok (s i)) ∧
        job.RoundRobinMapped s) ↔
      (∀ i, nlp ≤ job.gTwNkp i ∧ nlp < 2 ^ 32) ∧ job.SameTotal := by
  have hnlp : ∀ i, (job.env i).gTwNlp = nlp := hsame
  constructor
  · rintro ⟨s, hs, hmapped⟩
    have hroom : ∀ i, nlp ≤ job.gTwNkp i ∧ nlp < 2 ^ 32 := by
      intro i
      by_contra hmany
      rw [not_and_or, not_le, not_lt] at hmany
      have hi := hs i
      rcases mapRoundRobin_stops (job.env i) npe (hk i) (by rw [hnlp]; exact hmany) with
        herr | herr
      · rw [herr] at hi
        cases hi
      · rw [herr] at hi
        cases hi
    refine ⟨hroom, ?_⟩
    have harrays : job.RoundRobinArrays s := by
      intro i
      obtain ⟨s', hrun, h'⟩ := mapRoundRobin_ok (job.env i) npe
        (by rw [hnlp]; exact (hroom i).1) (by rw [hnlp]; exact (hroom i).2)
      rw [hs i, Except.ok.injEq] at hrun
      rw [hrun]
      exact h'
    exact harrays.sameTotal hsame hn hmapped.looksUp
  · rintro ⟨hroom, htotal⟩
    have hrun : ∀ i, ∃ s', (job.env i).mapRoundRobin npe (job.env i).arrays0 = .ok s' ∧
        Assigned (job.env i) (job.env i).roundRobinKp ((job.env i).roundRobinGid npe) s'
          (job.pe i).nlp (job.pe i).nlp := fun i =>
      mapRoundRobin_ok (job.env i) npe (by rw [hnlp]; exact (hroom i).1)
        (by rw [hnlp]; exact (hroom i).2)
    choose s hs harrays using hrun
    have harr : job.RoundRobinArrays s := harrays
    have hkp : ∀ i, ∀ l < (job.pe i).nlp, (job.env i).roundRobinKp l = l := by
      intro i l hl
      rw [hsame i] at hl
      exact Nat.mod_eq_of_lt (hl.trans_le (hroom i).1)
    refine ⟨s, hs, fun i l hl => ?_, fun i k hlt => ?_, harr.gidsBijective hsame,
      fun i l lp hlp => harr.looksUp hsame htotal i hlp⟩
    · have hjoin := (harr i).kp l
      rw [if_pos hl, Option.join_eq_some_iff] at hjoin
      refine ⟨_, l, _, harr.slot_iff.mpr ⟨hl, rfl⟩, ?_, hjoin⟩
      rw [hkp i l hl]
    · have hl : k < (job.pe i).nlp := by omega
      refine ⟨k, _, harr.slot_iff.mpr ⟨hl, rfl⟩, ?_⟩
      rw [hkp i k hl]

/-- Two PEs with two LPs and 16 KPs each. -/
def twoPes (nlp : Nat) : JobSetup 2 := ⟨.optimistic, false, fun _ => ⟨nlp, 16, 1⟩⟩

theorem map_round_robin_iff_two : ∃ s : Fin 2 → MapArrays,
    (∀ i, ((twoPes 2).env i).mapRoundRobin 2 ((twoPes 2).env i).arrays0 = .ok (s i)) ∧
      (twoPes 2).RoundRobinMapped s :=
  (map_round_robin_iff (twoPes 2) 2 (by decide) (fun _ => rfl) (by decide)).mpr
    ⟨by decide, by decide⟩

/-- With 17 LPs the first KP comes round again. -/
theorem map_round_robin_stops :
    ((twoPes 17).env 0).mapRoundRobin 2 ((twoPes 17).env 0).arrays0 = .error .kpAllocated := by
  decide +kernel

end JobSetup

end Ross

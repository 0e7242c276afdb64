import Ross.Proofs.BuddyInvariant

/-!
# Runs of the buddy allocator

A user calls `buddy_alloc`, frees what it got once, and writes into its areas.  The used
blocks are then those of the live areas, and everything freed is one block again.
-/

namespace Ross

open BuddyTiling Transition

variable {p k o i : Nat} {t : Buddy} {b b' : Bucket} {blk : Blocks Purpose} {u : Purpose}
variable {F : Nat → Nat → Prop}

/-! ## The table made -/

/-- The order of the arena. -/
def arenaOrder (powerOfTwo : Nat) : Nat := max powerOfTwo buddyBlockOrder

/-- The arena is one free block. -/
def primordial (p : Nat) : Blocks Purpose := Function.update (fun _ => none) 0 (some (p, .free))

theorem primordial_free (p x k : Nat) : FreeBlock (primordial p) x k ↔ x = 0 ∧ k = p := by
  unfold FreeBlock primordial
  by_cases hx : x = 0
  · subst hx
    rw [Function.update_self]
    simp [eq_comm]
  · rw [Function.update_of_ne hx]
    simp [hx]

theorem primordial_coalesced (p : Nat) : Coalesced p (primordial p) := by
  intro x k hk hx
  have horder := ((primordial_free p x k).mp hx).2
  omega

/-- `create_buddy_table` makes one free block. -/
theorem createBuddyTable_ok (powerOfTwo : Nat) (h : powerOfTwo < 31) :
    ∃ t, Buddy.createBuddyTable powerOfTwo = .ok t ∧ arenaOrder powerOfTwo < 31 ∧
      BuddyInv (arenaOrder powerOfTwo) t (primordial (arenaOrder powerOfTwo)) := by
  have hpower : (if powerOfTwo < buddyBlockOrder then buddyBlockOrder else powerOfTwo) =
      arenaOrder powerOfTwo := by
    unfold arenaOrder
    split <;> omega
  have hge : 6 ≤ arenaOrder powerOfTwo := le_max_right _ _
  have hlt : arenaOrder powerOfTwo < 31 := by
    unfold arenaOrder buddyBlockOrder
    omega
  obtain ⟨p, hp⟩ : ∃ p, arenaOrder powerOfTwo = p := ⟨_, rfl⟩
  unfold Buddy.createBuddyTable
  rw [hpower, hp]
  rw [hp] at hge hlt
  dsimp only
  rw [if_neg (by omega), List.getElem?_map, List.getElem?_range (by unfold buddyBlockOrder; omega)]
  have htiles : Tiles 6 p (primordial p) := Tiles.single hge Purpose.free
  refine ⟨_, rfl, hlt, htiles, fun {x k u} hx => ?_, ?_, ?_, ?_⟩
  · by_cases hx0 : x = 0
    · subst hx0
      rw [primordial, Function.update_self, Option.some.injEq, Prod.mk.injEq] at hx
      obtain ⟨rfl, rfl⟩ := hx
      simp only [Buddy.setBucket, Buddy.setHeader, Function.update_self]
    · rw [primordial, Function.update_of_ne hx0] at hx
      cases hx
  · unfold Buddy.setBucket Buddy.setHeader
    exact Function.update_of_ne (Nat.two_pow_pos p).ne' ..
  · unfold Buddy.setBucket Buddy.setHeader buddyBlockOrder
    rw [List.length_set, List.length_map, List.length_range]
    omega
  · have hlisted : Listed (fun _ _ => False)
        ((List.range (p - buddyBlockOrder + 1)).map fun i => ⟨[], 0, i + buddyBlockOrder⟩) := by
      intro i b hi
      rw [List.getElem?_map, Option.map_eq_some_iff] at hi
      obtain ⟨j, hj, rfl⟩ := hi
      obtain ⟨hjlt, hj⟩ := List.getElem?_eq_some_iff.mp hj
      rw [List.getElem_range] at hj
      subst hj
      exact ⟨rfl, List.nodup_nil, fun o => by simp, rfl⟩
    refine hlisted.set
      ⟨rfl, List.nodup_cons.mpr ⟨List.not_mem_nil, List.nodup_nil⟩, fun x => ?_, rfl⟩
      fun j hj x => ?_
    · rw [List.mem_singleton, primordial_free]
      unfold buddyBlockOrder
      exact (and_iff_left (by omega)).symm
    · rw [primordial_free]
      unfold buddyBlockOrder at hj
      exact iff_of_false (fun hx => by omega) id

theorem createBuddyTable_eq_error (powerOfTwo : Nat) (h : 31 ≤ powerOfTwo) :
    Buddy.createBuddyTable powerOfTwo = .error .arenaSize := by
  have hpower : ¬ powerOfTwo < buddyBlockOrder := by
    unfold buddyBlockOrder
    omega
  unfold Buddy.createBuddyTable
  rw [if_neg hpower]
  exact if_pos h

/-! ## Runs -/

namespace BuddyRun

variable {s s' : BuddyRun}

/-- The sizes keep to 32 bits, an area is freed while it is live, and a store goes into a
live area: it changes what a header there would read. -/
def Admissible (s : BuddyRun) : BuddyCall → Prop
  | .alloc size => size + sizeofBuddyList ≤ 2 ^ 31
  | .free ptr => ∃ a ∈ s.live, a.1 = ptr
  | .store x _ => ∃ a ∈ s.live, a.1 < x + sizeofBuddyList ∧ x < a.1 + a.2

instance (s : BuddyRun) : (c : BuddyCall) → Decidable (s.Admissible c)
  | .alloc size => inferInstanceAs (Decidable (size + sizeofBuddyList ≤ 2 ^ 31))
  | .free ptr => inferInstanceAs (Decidable (∃ a ∈ s.live, a.1 = ptr))
  | .store x _ =>
      inferInstanceAs (Decidable (∃ a ∈ s.live, a.1 < x + sizeofBuddyList ∧ x < a.1 + a.2))

/-- Runs of the allocator of a table order. -/
def AdmissibleRun (powerOfTwo : Nat) : BuddyRun → Prop :=
  ReachableVia (fun s => Buddy.createBuddyTable powerOfTwo = .ok s.table ∧ s.live = [])
    (fun s c s' => s.call c = .ok s') Admissible

/-- The blocks of the allocator: they tile the arena and the table tells them, no free
buddies are left apart, and the used blocks are those of the live areas, which fit. -/
structure Holds (p : Nat) (s : BuddyRun) (blk : Blocks Purpose) : Prop where
  table : BuddyInv p s.table blk
  coalesced : Coalesced p blk
  fits : ∀ a ∈ s.live, ∃ o k, a.1 = o + sizeofBuddyList ∧ blk o = some (k, .used) ∧
    a.1 + a.2 ≤ o + 2 ^ k
  owned : ∀ o k, blk o = some (k, .used) → ∃ size, (o + sizeofBuddyList, size) ∈ s.live
  once : (s.live.map Prod.fst).Nodup

/-! ## Steps -/

theorem Holds.alloc {size : Nat} (h : Holds p s blk) (ha : s.Admissible (.alloc size)) :
    s.call (.alloc size) = .error .increaseBuddySize ∨
      ∃ s' blk', s.call (.alloc size) = .ok s' ∧ Holds p s' blk' := by
  unfold call
  rcases buddyAlloc_ok h.table h.coalesced ha with
    ⟨hrun, -⟩ | ⟨o, k, t', blk', hrun, h', hc', hfit, hfresh, hused⟩
  · left
    dsimp only
    rw [hrun]
  · right
    dsimp only
    rw [hrun]
    refine ⟨_, blk', rfl, h', hc', fun a ha => ?_, fun x k' hx => ?_, ?_⟩
    · rcases List.mem_cons.mp ha with rfl | ha
      · refine ⟨o, k, rfl, (hused o k).mpr (.inl ⟨rfl, rfl⟩), ?_⟩
        dsimp only
        omega
      · obtain ⟨x, k', hptr, hx, hle⟩ := h.fits a ha
        exact ⟨x, k', hptr, (hused x k').mpr (.inr hx), hle⟩
    · rcases (hused x k').mp hx with ⟨rfl, rfl⟩ | hx
      · exact ⟨size, List.mem_cons_self⟩
      · obtain ⟨size', hmem⟩ := h.owned x k' hx
        exact ⟨size', List.mem_cons_of_mem _ hmem⟩
    · rw [List.map_cons, List.nodup_cons]
      refine ⟨fun hmem => ?_, h.once⟩
      obtain ⟨a, ha, hptr⟩ := List.mem_map.mp hmem
      obtain ⟨x, k', hptr', hx, -⟩ := h.fits a ha
      obtain rfl : x = o := by omega
      exact hfresh k' hx

theorem Holds.free {ptr : Nat} (h : Holds p s blk) (ha : s.Admissible (.free ptr)) :
    ∃ s' blk', s.call (.free ptr) = .ok s' ∧ Holds p s' blk' := by
  obtain ⟨a, ha, rfl⟩ := ha
  obtain ⟨o, k, hptr, ho, -⟩ := h.fits a ha
  obtain ⟨t', blk', hrun, h', hc', hused⟩ := buddyFree_ok h.table h.coalesced ho
  unfold call
  dsimp only
  rw [hptr, hrun]
  refine ⟨_, blk', rfl, h', hc', fun a ha => ?_, fun x k' hx => ?_, ?_⟩
  · obtain ⟨hmem, hne⟩ := List.mem_filter.mp ha
    rw [decide_eq_true_eq] at hne
    obtain ⟨x, k', hptr', hx, hle⟩ := h.fits a hmem
    refine ⟨x, k', hptr', (hused x k').mpr ⟨?_, hx⟩, hle⟩
    rintro rfl
    exact hne hptr'
  · obtain ⟨hne, hx⟩ := (hused x k').mp hx
    obtain ⟨size, hmem⟩ := h.owned x k' hx
    refine ⟨size, List.mem_filter.mpr ⟨hmem, ?_⟩⟩
    rw [decide_eq_true_eq]
    dsimp only
    omega
  · exact h.once.sublist (List.filter_sublist.map Prod.fst)

/-- A live area lies inside of its block, so a store into it reaches no header. -/
theorem Holds.store {x : Nat} {hd : BuddyHeader} (h : Holds p s blk)
    (ha : s.Admissible (.store x hd)) :
    ∃ s', s.call (.store x hd) = .ok s' ∧ Holds p s' blk := by
  obtain ⟨a, ha, hle, hlt⟩ := ha
  obtain ⟨o, k, hptr, ho, hfit⟩ := h.fits a ha
  have hin := h.table.tiles.inside ho
  refine ⟨_, rfl, ⟨h.table.tiles, fun {y k' u'} hy => ?_, ?_, h.table.length, h.table.listed⟩,
    h.coalesced, h.fits, h.owned, h.once⟩
  · unfold Buddy.setHeader
    dsimp only
    rw [Function.update_of_ne]
    · exact h.table.headers hy
    · rintro rfl
      have hpos := Nat.two_pow_pos k'
      have heq := h.table.tiles.disjoint hy ho le_rfl (by omega) (by omega) (by omega)
      omega
  · unfold Buddy.setHeader
    dsimp only
    rw [Function.update_of_ne (by omega)]
    exact h.table.behind

/-- A call either meets the end of the arena or keeps the blocks. -/
theorem Holds.call {c : BuddyCall} (h : Holds p s blk) (ha : s.Admissible c) :
    ((∃ size, c = .alloc size) ∧ s.call c = .error .increaseBuddySize) ∨
      ∃ s' blk', s.call c = .ok s' ∧ Holds p s' blk' := by
  cases c with
  | alloc size =>
      rcases h.alloc ha with herr | hok
      · exact .inl ⟨⟨size, rfl⟩, herr⟩
      · exact .inr hok
  | free ptr => exact .inr (h.free ha)
  | store x hd =>
      obtain ⟨s', hrun, h'⟩ := h.store ha
      exact .inr ⟨s', blk, hrun, h'⟩

theorem holds_of_run {powerOfTwo : Nat} (hs : AdmissibleRun powerOfTwo s) :
    arenaOrder powerOfTwo < 31 ∧ ∃ blk, Holds (arenaOrder powerOfTwo) s blk := by
  refine ReachableVia.invariant
    (P := fun s => arenaOrder powerOfTwo < 31 ∧ ∃ blk, Holds (arenaOrder powerOfTwo) s blk)
    (fun s hinit => ?_) (fun s c s' hinv ha hcall => ⟨hinv.1, ?_⟩) hs
  · obtain ⟨hcreate, hlive⟩ := hinit
    have hlt : powerOfTwo < 31 := by
      by_contra hge
      rw [createBuddyTable_eq_error powerOfTwo (by omega)] at hcreate
      cases hcreate
    obtain ⟨t, ht, horder, hinv⟩ := createBuddyTable_ok powerOfTwo hlt
    rw [hcreate, Except.ok.injEq] at ht
    subst ht
    refine ⟨horder, _, hinv, primordial_coalesced _, fun a ha => ?_, fun o k ho => ?_, ?_⟩
    · rw [hlive] at ha
      cases ha
    · by_cases ho0 : o = 0
      · subst ho0
        rw [primordial, Function.update_self] at ho
        cases ho
      · rw [primordial, Function.update_of_ne ho0] at ho
        cases ho
    · rw [hlive]
      exact List.nodup_nil
  · obtain ⟨-, blk, hinv⟩ := hinv
    rcases hinv.call ha with ⟨-, herr⟩ | ⟨s₁, blk', hok, h'⟩
    · rw [hcall] at herr
      cases herr
    · rw [hcall, Except.ok.injEq] at hok
      exact ⟨blk', hok ▸ h'⟩

/-! ## What holds of the blocks -/

/-- Two live areas do not overlap. -/
theorem Holds.disjoint (h : Holds p s blk) :
    s.live.Pairwise fun a a' => a.1 + a.2 ≤ a'.1 ∨ a'.1 + a'.2 ≤ a.1 := by
  refine (List.pairwise_map.mp h.once).imp_of_mem fun {a a'} ha ha' hne => ?_
  obtain ⟨o, k, hptr, ho, hfit⟩ := h.fits a ha
  obtain ⟨o', k', hptr', ho', hfit'⟩ := h.fits a' ha'
  by_contra hover
  rw [not_or, not_le, not_le] at hover
  have hpos := Nat.two_pow_pos k
  have hpos' := Nat.two_pow_pos k'
  have heq : o = o' := by
    rcases Nat.le_total o o' with hle | hle
    · exact h.table.tiles.disjoint ho ho' hle (by omega) le_rfl (by omega)
    · exact h.table.tiles.disjoint ho ho' le_rfl (by omega) hle (by omega)
  exact hne (by omega)

theorem dump_of_inv (h : BuddyInv p t blk) (hp : p < 31) : t.dumpBuddyTable = true := by
  unfold Buddy.dumpBuddyTable
  rw [List.all_eq_true]
  intro b hb
  obtain ⟨i, hi⟩ := List.mem_iff_getElem?.mp hb
  have hok := h.listed i b hi
  rw [Bool.and_eq_true, List.all_eq_true, decide_eq_true_eq]
  refine ⟨fun x hx => ?_, hok.count.symm⟩
  have hfree := (hok.mem x).mp hx
  have hord := h.tiles.order hfree
  rw [decide_eq_true_eq, h.headers hfree, hok.order]
  exact nextPower2_header hord.1 (by omega)

/-- A list that holds at most the start of the arena is known from what it holds. -/
theorem eq_of_bucketOk (h : BucketOk F i b) (h' : BucketOk F i b') (hF : ∀ o, F o (i + 6) → o = 0) :
    b = b' := by
  have hperm : b.ptr.Perm b'.ptr := by
    rw [List.perm_ext_iff_of_nodup h.nodup h'.nodup]
    exact fun x => (h.mem x).trans (h'.mem x).symm
  have hptr : b.ptr = b'.ptr := by
    have hzero : ∀ x ∈ b'.ptr, x = 0 := fun x hx => hF x ((h'.mem x).mp hx)
    have hnodup := h'.nodup
    match hl : b'.ptr with
    | [] =>
        rw [hl] at hperm
        exact List.perm_nil.mp hperm
    | [x] =>
        rw [hl] at hperm
        exact List.perm_singleton.mp hperm
    | x :: y :: l =>
        exfalso
        rw [hl] at hzero hnodup
        have hx := hzero x List.mem_cons_self
        have hy := hzero y (List.mem_cons_of_mem _ List.mem_cons_self)
        exact (List.nodup_cons.mp hnodup).1 (hx.trans hy.symm ▸ List.mem_cons_self)
  have hcount : b.count = b'.count := by rw [h.count, h'.count, hptr]
  have horder : b.order = b'.order := h.order.trans h'.order.symm
  cases b
  cases b'
  cases hptr
  cases hcount
  cases horder
  rfl

/-- The tables of the same single block. -/
theorem buckets_eq {t t' : Buddy} (h : BuddyInv p t blk) (h' : BuddyInv p t' blk)
    (hone : ∀ o k, FreeBlock blk o k → o = 0) : t.buckets = t'.buckets := by
  have hlen : t.buckets.length = t'.buckets.length := by
    have h₁ := h.length
    have h₂ := h'.length
    omega
  refine List.ext_getElem hlen fun i hi hi' => ?_
  exact eq_of_bucketOk (h.listed i _ (List.getElem?_eq_getElem hi))
    (h'.listed i _ (List.getElem?_eq_getElem hi')) fun o ho => hone o _ ho

/-- With nothing live the arena is one free block. -/
theorem Holds.whole (h : Holds p s blk) (hlive : s.live = []) : blk = primordial p := by
  have hfree : ∀ {o k u'}, blk o = some (k, u') → u' = .free := by
    intro o k u' ho
    cases u' with
    | free => rfl
    | used =>
        obtain ⟨size, hmem⟩ := h.owned o k ho
        rw [hlive] at hmem
        cases hmem
  obtain ⟨hzero, hnone⟩ := h.table.tiles.whole (u := Purpose.free) hfree
    fun hk ho => h.coalesced _ _ hk ho
  funext o
  by_cases ho : o = 0
  · subst ho
    rw [hzero, primordial, Function.update_self]
  · rw [hnone o ho, primordial, Function.update_of_ne ho]

/-- What the allocator keeps.  Every table order that an arena can have gives a table.
In every run the blocks tile the arena, each at a multiple of its size, with truthful
headers and with lists and counts that are exact; no two free blocks are buddies; the
live areas fit into the used blocks and do not overlap; a call meets no assertion, and
nothing but the end of the arena stops it; and with everything freed the table is the
one that was made. -/
theorem buddy_correct (powerOfTwo : Nat) :
    (powerOfTwo < 31 → ∃ t, Buddy.createBuddyTable powerOfTwo = .ok t) ∧
    ∀ s : BuddyRun, AdmissibleRun powerOfTwo s →
      (∃ blk, Holds (arenaOrder powerOfTwo) s blk) ∧
      (s.live.Pairwise fun a a' => a.1 + a.2 ≤ a'.1 ∨ a'.1 + a'.2 ≤ a.1) ∧
      (∀ a ∈ s.live, a.1 + a.2 ≤ 2 ^ arenaOrder powerOfTwo) ∧
      (∀ c, s.Admissible c → (∃ s', s.call c = .ok s') ∨
        (∃ size, c = .alloc size) ∧ s.call c = .error .increaseBuddySize) ∧
      s.table.dumpBuddyTable = true ∧
      (s.live = [] → ∃ t, Buddy.createBuddyTable powerOfTwo = .ok t ∧
        s.table.buckets = t.buckets ∧ s.table.mem 0 = t.mem 0) := by
  refine ⟨fun hlt => ?_, fun s hs => ?_⟩
  · obtain ⟨t, ht, -⟩ := createBuddyTable_ok powerOfTwo hlt
    exact ⟨t, ht⟩
  · obtain ⟨horder, blk, h⟩ := holds_of_run hs
    refine ⟨⟨blk, h⟩, h.disjoint, fun a ha => ?_, fun c hc => ?_, dump_of_inv h.table horder,
      fun hlive => ?_⟩
    · obtain ⟨o, k, hptr, ho, hfit⟩ := h.fits a ha
      have hin := h.table.tiles.inside ho
      omega
    · rcases h.call hc with herr | ⟨s', -, hok, -⟩
      · exact .inr herr
      · exact .inl ⟨s', hok⟩
    · have hlt : powerOfTwo < 31 := by
        have hle : powerOfTwo ≤ arenaOrder powerOfTwo := le_max_left _ _
        omega
      obtain ⟨t, ht, -, hinv⟩ := createBuddyTable_ok powerOfTwo hlt
      obtain rfl := h.whole hlive
      have hzero : primordial (arenaOrder powerOfTwo) 0 = some (arenaOrder powerOfTwo, .free) :=
        Function.update_self ..
      refine ⟨t, ht, buckets_eq h.table hinv fun o k ho => ((primordial_free _ o k).mp ho).1, ?_⟩
      rw [h.table.headers hzero, hinv.headers hzero]

/-- The table of order 8. -/
def tableEight : Buddy :=
  ((⟨fun _ => ⟨0, .free⟩, [⟨[], 0, 6⟩, ⟨[], 0, 7⟩, ⟨[], 0, 8⟩]⟩ : Buddy).setHeader 0
    ⟨224, .free⟩).setBucket 2 ⟨[0], 1, 8⟩

theorem runs_eight (calls : List BuddyCall) (live : List (Nat × Nat))
    (h : (runList (checked BuddyRun.call fun s c => decide (s.Admissible c)) ⟨tableEight, []⟩
      calls).toOption.any (fun s => decide (s.live = live)) = true) :
    ∃ s, AdmissibleRun 8 s ∧ s.live = live := by
  have hstart : Buddy.createBuddyTable 8 = .ok tableEight := rfl
  have hinit : AdmissibleRun 8 ⟨tableEight, []⟩ := .start ⟨hstart, rfl⟩
  obtain ⟨s, hs, hlive⟩ := ReachableVia.exists_of_runList
    (fun (s : BuddyRun) c => decide (s.Admissible c)) _ calls
    (fun _ _ h => of_decide_eq_true h) hinit h
  exact ⟨s, hs, of_decide_eq_true hlive⟩

theorem buddy_correct_run :
    (∃ s, AdmissibleRun 8 s ∧ s.live = [(160, 10), (32, 40)] ∧ s.table.dumpBuddyTable = true ∧
      ∃ s', s.call (.free 32) = .ok s') ∧
    ∃ s, AdmissibleRun 8 s ∧ s.live = [] ∧
      ∃ t, Buddy.createBuddyTable 8 = .ok t ∧ s.table.buckets = t.buckets := by
  obtain ⟨-, hall⟩ := buddy_correct 8
  obtain ⟨s, hs, hlive⟩ := runs_eight [.alloc 40, .alloc 10, .store 161 ⟨32, .free⟩]
    [(160, 10), (32, 40)] (by decide +kernel)
  obtain ⟨s', hs', hlive'⟩ := runs_eight [.alloc 40, .alloc 10, .free 32, .free 160] []
    (by decide +kernel)
  obtain ⟨-, -, -, hcall, hdump, -⟩ := hall s hs
  obtain ⟨-, -, -, -, -, hwhole⟩ := hall s' hs'
  obtain ⟨t, ht, hbuckets, -⟩ := hwhole hlive'
  refine ⟨⟨s, hs, hlive, hdump, ?_⟩, s', hs', hlive', t, ht, hbuckets⟩
  rcases hcall (.free 32) ⟨(32, 40), by rw [hlive]; decide, rfl⟩ with hok | ⟨⟨size, hsize⟩, -⟩
  · exact hok
  · cases hsize

end BuddyRun

end Ross

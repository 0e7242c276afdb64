import Ross.Proofs.BuddyRuns

/-!
# What a merge looks at

The loop of `buddy_try_merge` has no end at the largest order.  While a used block is
left, the block that it merges is not yet the whole arena and its buddy lies inside.  When
none is left the merges go on up to the whole arena, and the loop then looks for the buddy
of that, which starts where the arena ends.
-/

namespace Ross

open BuddyTiling Transition

variable {p k o : Nat} {t : Buddy} {blk : Blocks Purpose} {u : Purpose}

/-- A header in the arena of order `p`, and a valid bucket of its table. -/
def BuddyAccess.Inside (p : Nat) : BuddyAccess → Prop
  | .header x => x + sizeofBuddyList ≤ 2 ^ p
  | .bucket i => i + buddyBlockOrder ≤ p

instance (p : Nat) : (a : BuddyAccess) → Decidable (a.Inside p)
  | .header x => inferInstanceAs (Decidable (x + sizeofBuddyList ≤ 2 ^ p))
  | .bucket i => inferInstanceAs (Decidable (i + buddyBlockOrder ≤ p))

/-- A used block other than that at `o`. -/
def OtherUsed (blk : Blocks Purpose) (o : Nat) : Prop := ∃ x k, x ≠ o ∧ blk x = some (k, .used)

/-! ## Blocks -/

theorem BuddyInv.header_inside (h : BuddyInv p t blk) (ho : blk o = some (k, u)) :
    o + sizeofBuddyList ≤ 2 ^ p := by
  have hin := h.tiles.inside ho
  have hsize := header_size (h.tiles.order ho).1
  omega

/-- A block of the largest order is alone. -/
theorem BuddyInv.alone (h : BuddyInv p t blk) (ho : blk o = some (p, u)) : ¬ OtherUsed blk o := by
  rintro ⟨x, k', hne, hx⟩
  have hin := h.tiles.inside ho
  have hpos := Nat.two_pow_pos k'
  have hlt := h.tiles.lt hx
  exact hne (h.tiles.disjoint hx ho le_rfl (by omega) (by omega) (by omega))

theorem OtherUsed.merge (hother : OtherUsed blk o) (hbud : FreeBlock blk (o ^^^ 2 ^ k) k) :
    OtherUsed (merge blk o k .free) (min o (o ^^^ 2 ^ k)) := by
  obtain ⟨x, k', hne, hx⟩ := hother
  have hx' := (used_merge hbud x k').mpr ⟨hne, hx⟩
  refine ⟨x, k', ?_, hx'⟩
  rintro rfl
  rw [merge_min] at hx'
  cases hx'

theorem not_otherUsed_merge (hnone : ¬ OtherUsed blk o) (hbud : FreeBlock blk (o ^^^ 2 ^ k) k) :
    ¬ OtherUsed (merge blk o k .free) (min o (o ^^^ 2 ^ k)) := by
  rintro ⟨x, k', -, hx⟩
  exact hnone ⟨x, k', (used_merge hbud x k').mp hx⟩

/-- With no other used block, a block that is not all has a free buddy. -/
theorem BuddyInv.buddy_free (h : BuddyInv p t blk) (ho : blk o = some (k, u)) (hk : k < p)
    (hc : CoalescedBut p (Function.update blk o (some (k, .free))) o)
    (hnone : ¬ OtherUsed blk o) : FreeBlock blk (o ^^^ 2 ^ k) k := by
  by_contra hbud
  have hco := hc.of_buddy fun _ => hbud
  have htiles := h.tiles.relabel ho .free
  have hfree : ∀ {x k' u'}, Function.update blk o (some (k, .free)) x = some (k', u') →
      u' = .free := by
    intro x k' u' hx
    cases u' with
    | free => rfl
    | used => exact absurd ⟨x, k', (used_free blk o k x k').mp hx⟩ hnone
  obtain ⟨hzero, hrest⟩ := htiles.whole (u := Purpose.free) hfree fun hk' hx => hco _ _ hk' hx
  have hself : Function.update blk o (some (k, Purpose.free)) o = some (k, .free) :=
    Function.update_self ..
  by_cases ho0 : o = 0
  · rw [ho0] at hself
    rw [ho0, hself, Option.some.injEq, Prod.mk.injEq] at hzero
    omega
  · rw [hrest o ho0] at hself
    cases hself

/-! ## Turns -/

theorem findAccesses_inside (h : BuddyInv p t blk) (ho : blk o = some (k, u)) :
    ∀ a ∈ t.findAccesses (2 ^ k), a.Inside p := by
  intro a ha
  have hord := h.tiles.order ho
  unfold Buddy.findAccesses at ha
  rw [h.find ho] at ha
  obtain ⟨i, hi, rfl⟩ := List.mem_map.mp ha
  have hlt := List.mem_range.mp hi
  unfold BuddyAccess.Inside buddyBlockOrder
  dsimp only [Option.getD_some] at hlt
  omega

/-- A turn looks at the block, the buckets up to its own, the buddy, and the bucket above
if it merges. -/
theorem mem_turnAccesses (h : BuddyInv p t blk) (ho : blk o = some (k, u)) (a : BuddyAccess) :
    a ∈ t.turnAccesses o ↔ a = .header o ∨ a ∈ t.findAccesses (2 ^ k) ∨
      a = .header (o ^^^ 2 ^ k) ∨
      (k < p ∧ FreeBlock blk (o ^^^ 2 ^ k) k) ∧ a = .bucket (k - 6 + 1) := by
  unfold Buddy.turnAccesses
  simp only [h.headers ho]
  rw [header_size (h.tiles.order ho).1, h.find ho, List.cons_append, List.mem_cons,
    List.mem_append, List.mem_cons]
  by_cases htest : k < p ∧ FreeBlock blk (o ^^^ 2 ^ k) k
  · rw [if_pos ((mergeTest_iff h ho).mpr htest), List.mem_singleton, and_iff_right htest]
    rfl
  · rw [if_neg (mt (mergeTest_iff h ho).mp htest)]
    simp only [List.not_mem_nil, htest, false_and]

/-- A turn on a block that is not all stays inside. -/
theorem turnAccesses_inside (h : BuddyInv p t blk) (ho : blk o = some (k, u)) (hk : k < p) :
    ∀ a ∈ t.turnAccesses o, a.Inside p := by
  intro a ha
  have hord := h.tiles.order ho
  rcases (mem_turnAccesses h ho a).mp ha with rfl | ha | rfl | ⟨-, rfl⟩
  · exact h.header_inside ho
  · exact findAccesses_inside h ho a ha
  · have hin := h.tiles.buddy_lt ho hk
    have hsize := header_size hord.1
    unfold BuddyAccess.Inside
    omega
  · unfold BuddyAccess.Inside buddyBlockOrder
    omega

/-- A turn on the whole arena looks behind it. -/
theorem mem_turnAccesses_whole (h : BuddyInv p t blk) (ho : blk o = some (p, u)) :
    .header (2 ^ p) ∈ t.turnAccesses o := by
  have hin := h.tiles.inside ho
  have ho0 : o = 0 := by omega
  subst ho0
  rw [mem_turnAccesses h ho, Nat.zero_xor]
  exact .inr (.inr (.inl rfl))

/-! ## The loop -/

/-- While another block is used no turn is on the whole arena. -/
theorem mergeAccesses_inside : ∀ (n : Nat) {mergeCount o k : Nat} {u : Purpose} {t : Buddy}
    {blk : Blocks Purpose}, BuddyInv p t blk → blk o = some (k, u) →
    (mergeCount = 0 ∧ u = .used ∨ mergeCount ≠ 0 ∧ u = .free) → OtherUsed blk o →
    ∀ a ∈ Buddy.mergeAccesses n mergeCount o t, a.Inside p := by
  intro n
  induction n with
  | zero =>
      intro mergeCount o k u t blk _ _ _ _ a ha
      cases ha
  | succ n ih =>
      intro mergeCount o k u t blk h ho hu hother a ha
      have hk : k < p := by
        have hle := (h.tiles.order ho).2
        by_contra hge
        obtain rfl : k = p := by omega
        exact h.alone ho hother
      rw [Buddy.mergeAccesses, List.mem_append] at ha
      rcases ha with ha | ha
      · exact turnAccesses_inside h ho hk a ha
      · by_cases hbud : FreeBlock blk (o ^^^ 2 ^ k) k
        · obtain ⟨b, hb, -, -⟩ := h.bucket ho
          obtain ⟨t₁, b₁, hturn, h₁, -⟩ := mergeTurn_ok h ho hu hb hk hbud
          rw [hturn] at ha
          exact ih h₁ (merge_min blk o k .free) (.inr ⟨Nat.succ_ne_zero _, rfl⟩)
            (hother.merge hbud) a ha
        · rw [mergeTurn_stop mergeCount h ho fun hboth => hbud hboth.2] at ha
          cases ha

/-- With no other used block the last turn is on the whole arena. -/
theorem mem_mergeAccesses_behind : ∀ (n : Nat) {mergeCount o k : Nat} {u : Purpose} {t : Buddy}
    {blk : Blocks Purpose}, p < n + k → BuddyInv p t blk → blk o = some (k, u) →
    (mergeCount = 0 ∧ u = .used ∨ mergeCount ≠ 0 ∧ u = .free) →
    CoalescedBut p (Function.update blk o (some (k, .free))) o → ¬ OtherUsed blk o →
    .header (2 ^ p) ∈ Buddy.mergeAccesses n mergeCount o t := by
  intro n
  induction n with
  | zero =>
      intro mergeCount o k u t blk hn h ho
      have hord := h.tiles.order ho
      omega
  | succ n ih =>
      intro mergeCount o k u t blk hn h ho hu hc hnone
      have hord := h.tiles.order ho
      rw [Buddy.mergeAccesses, List.mem_append]
      by_cases hk : k < p
      · right
        have hbud := h.buddy_free ho hk hc hnone
        obtain ⟨b, hb, -, -⟩ := h.bucket ho
        obtain ⟨t₁, b₁, hturn, h₁, -⟩ := mergeTurn_ok h ho hu hb hk hbud
        rw [hturn]
        exact ih (by omega) h₁ (merge_min blk o k .free) (.inr ⟨Nat.succ_ne_zero _, rfl⟩)
          hc.merge (not_otherUsed_merge hnone hbud)
      · left
        obtain rfl : k = p := by omega
        exact mem_turnAccesses_whole h ho

/-! ## Freeing -/

/-- What `buddy_free` of a used block looks at: its header, the buckets up to its own, and
the accesses of the merge, which is left out when that bucket is empty. -/
theorem mem_freeAccesses (h : BuddyInv p t blk) (ho : blk o = some (k, .used)) (a : BuddyAccess) :
    a ∈ t.freeAccesses (o + sizeofBuddyList) ↔ a = .header o ∨ a ∈ t.findAccesses (2 ^ k) ∨
      (∃ x, FreeBlock blk x k) ∧ a ∈ Buddy.mergeAccesses (t.buckets.length + 1) 0 o t := by
  obtain ⟨b, hb, hok, hkk⟩ := h.bucket ho
  have hcount : b.count = 0 ↔ ¬ ∃ x, FreeBlock blk x k := by
    rw [hok.count]
    constructor
    · rintro hzero ⟨x, hx⟩
      have hmem : x ∈ b.ptr := (hok.mem x).mpr (hkk.symm ▸ hx)
      have hpos := List.length_pos_of_mem hmem
      omega
    · intro hnone
      have hnil : b.ptr = [] := by
        rw [List.eq_nil_iff_forall_not_mem]
        exact fun x hx => hnone ⟨x, hkk ▸ (hok.mem x).mp hx⟩
      rw [hnil]
      rfl
  unfold Buddy.freeAccesses
  simp only [Nat.add_sub_cancel, h.headers ho]
  rw [header_size (h.tiles.order ho).1, h.find ho, Option.bind_some, hb, List.cons_append,
    List.mem_cons, List.mem_append]
  simp only [ne_eq, not_true_eq_false, false_or]
  by_cases hzero : b.count = 0
  · rw [if_pos hzero]
    simp only [List.not_mem_nil, hcount.mp hzero, false_and]
  · rw [if_neg hzero, and_iff_right (by_contra fun hnone => hzero (hcount.mpr hnone))]

/-- `buddy_free` looks behind the arena when nothing else is used, but not on the whole
arena, whose bucket is empty. -/
theorem freeAccesses_inside_iff (h : BuddyInv p t blk) (hc : Coalesced p blk)
    (ho : blk o = some (k, .used)) :
    (∀ a ∈ t.freeAccesses (o + sizeofBuddyList), a.Inside p) ↔ OtherUsed blk o ∨ k = p := by
  have hord := h.tiles.order ho
  have hlen := h.length
  constructor
  · intro hall
    by_contra hnot
    obtain ⟨hnone, hkp⟩ := not_or.mp hnot
    have hk : k < p := by omega
    have hcf := hc.free o k
    have hbud := h.buddy_free ho hk hcf hnone
    have hmem := mem_mergeAccesses_behind (t.buckets.length + 1) (by omega) h ho (.inl ⟨rfl, rfl⟩)
      hcf hnone
    have hin := hall (.header (2 ^ p))
      ((mem_freeAccesses h ho _).mpr (.inr (.inr ⟨⟨_, hbud⟩, hmem⟩)))
    unfold BuddyAccess.Inside sizeofBuddyList at hin
    omega
  · intro hcond a ha
    rcases (mem_freeAccesses h ho a).mp ha with rfl | ha | ⟨⟨x, hx⟩, ha⟩
    · exact h.header_inside ho
    · exact findAccesses_inside h ho a ha
    · rcases hcond with hother | rfl
      · exact mergeAccesses_inside _ h ho (.inl ⟨rfl, rfl⟩) hother a ha
      · -- a free block beside the whole arena
        exfalso
        have hin := h.tiles.inside ho
        have hpos := Nat.two_pow_pos k
        have hlt := h.tiles.lt hx
        have hxo := h.tiles.disjoint hx ho le_rfl (by omega) (by omega) (by omega)
        rw [hxo] at hx
        have hu := (hx.order_eq ho).2
        cases hu

/-! ## Runs -/

namespace BuddyRun

variable {s s' : BuddyRun}

/-- Only a live area is freed, and a store goes into the block of one. -/
def KeepsToLive (s : BuddyRun) : BuddyCall → Prop
  | .alloc _ => True
  | .free ptr => ∃ a ∈ s.live, a.1 = ptr
  | .store x _ => ∃ a ∈ s.live, a.1 < x + sizeofBuddyList ∧
      x < a.1 + (s.table.mem (a.1 - sizeofBuddyList)).size

instance (s : BuddyRun) : (c : BuddyCall) → Decidable (s.KeepsToLive c)
  | .alloc _ => inferInstanceAs (Decidable True)
  | .free ptr => inferInstanceAs (Decidable (∃ a ∈ s.live, a.1 = ptr))
  | .store x _ => inferInstanceAs (Decidable (∃ a ∈ s.live, a.1 < x + sizeofBuddyList ∧
      x < a.1 + (s.table.mem (a.1 - sizeofBuddyList)).size))

/-- What a call looks at in `buddy_free` and `buddy_try_merge`. -/
def accesses (s : BuddyRun) : BuddyCall → List BuddyAccess
  | .free ptr => s.table.freeAccesses ptr
  | _ => []

/-- A call that leaves another area live, or frees a block that is the whole arena. -/
def LeavesLive (p : Nat) (s : BuddyRun) : BuddyCall → Prop
  | .free ptr => (∃ a ∈ s.live, a.1 ≠ ptr) ∨
      (s.table.mem (ptr - sizeofBuddyList)).size + sizeofBuddyList = 2 ^ p
  | _ => True

/-- The table tells the blocks, and the used ones are those of the live areas. -/
structure Blocked (p : Nat) (s : BuddyRun) (blk : Blocks Purpose) : Prop where
  table : BuddyInv p s.table blk
  coalesced : Coalesced p blk
  live : ∀ ptr, (∃ a ∈ s.live, a.1 = ptr) ↔
    ∃ o k, ptr = o + sizeofBuddyList ∧ blk o = some (k, .used)

/-- The other used blocks are those of the other live areas. -/
theorem Blocked.otherUsed_iff (h : Blocked p s blk) :
    OtherUsed blk o ↔ ∃ a ∈ s.live, a.1 ≠ o + sizeofBuddyList := by
  constructor
  · rintro ⟨x, k', hne, hx⟩
    obtain ⟨a, ha, hptr⟩ := (h.live _).mpr ⟨x, k', rfl, hx⟩
    exact ⟨a, ha, by omega⟩
  · rintro ⟨a, ha, hne⟩
    obtain ⟨x, k', hptr, hx⟩ := (h.live a.1).mp ⟨a, ha, rfl⟩
    exact ⟨x, k', by omega, hx⟩

/-- A call looks behind the arena just if it leaves nothing live and frees less than all. -/
theorem Blocked.inside_iff {c : BuddyCall} (h : Blocked p s blk) (hc : s.KeepsToLive c) :
    (∀ a ∈ s.accesses c, a.Inside p) ↔ s.LeavesLive p c := by
  cases c with
  | alloc size => exact iff_of_true (fun a ha => by cases ha) trivial
  | store x hd => exact iff_of_true (fun a ha => by cases ha) trivial
  | free ptr =>
      obtain ⟨o, k, rfl, ho⟩ := (h.live ptr).mp hc
      have hord := h.table.tiles.order ho
      unfold accesses LeavesLive
      dsimp only
      rw [freeAccesses_inside_iff h.table h.coalesced ho, h.otherUsed_iff, Nat.add_sub_cancel,
        h.table.headers ho]
      dsimp only
      rw [header_size hord.1]
      refine or_congr_right ⟨fun hk => by rw [hk], fun hpow => ?_⟩
      exact Nat.pow_right_injective le_rfl hpow

/-! ## Steps -/

theorem Blocked.alloc {size : Nat} (h : Blocked p s blk) (hcall : s.call (.alloc size) = .ok s') :
    ∃ blk', Blocked p s' blk' := by
  unfold call at hcall
  rcases buddyAlloc_block size h.table h.coalesced with
    hrun | ⟨o, k, t', blk', hrun, h', hc', hused⟩
  · dsimp only at hcall
    rw [hrun] at hcall
    cases hcall
  · dsimp only at hcall
    rw [hrun, Except.ok.injEq] at hcall
    subst hcall
    refine ⟨blk', h', hc', fun ptr => ?_⟩
    dsimp only
    simp only [hused]
    constructor
    · rintro ⟨a, ha, rfl⟩
      rcases List.mem_cons.mp ha with rfl | ha
      · exact ⟨o, k, rfl, .inl ⟨rfl, rfl⟩⟩
      · obtain ⟨x, k', heq, hx⟩ := (h.live a.1).mp ⟨a, ha, rfl⟩
        exact ⟨x, k', heq, .inr hx⟩
    · rintro ⟨x, k', rfl, ⟨rfl, -⟩ | hx⟩
      · exact ⟨_, List.mem_cons_self, rfl⟩
      · obtain ⟨a, ha, heq⟩ := (h.live _).mpr ⟨x, k', rfl, hx⟩
        exact ⟨a, List.mem_cons_of_mem _ ha, heq⟩

theorem Blocked.free {ptr : Nat} (h : Blocked p s blk) (hc : s.KeepsToLive (.free ptr))
    (hcall : s.call (.free ptr) = .ok s') : ∃ blk', Blocked p s' blk' := by
  obtain ⟨o, k, rfl, ho⟩ := (h.live ptr).mp hc
  obtain ⟨t', blk', hrun, h', hc', hused⟩ := buddyFree_ok h.table h.coalesced ho
  unfold call at hcall
  dsimp only at hcall
  rw [hrun, Except.ok.injEq] at hcall
  subst hcall
  refine ⟨blk', h', hc', fun ptr => ?_⟩
  simp only [List.mem_filter, decide_eq_true_eq, hused]
  constructor
  · rintro ⟨a, ⟨ha, hne⟩, rfl⟩
    obtain ⟨x, k', heq, hx⟩ := (h.live a.1).mp ⟨a, ha, rfl⟩
    exact ⟨x, k', heq, by omega, hx⟩
  · rintro ⟨x, k', rfl, hne, hx⟩
    obtain ⟨a, ha, heq⟩ := (h.live _).mpr ⟨x, k', rfl, hx⟩
    exact ⟨a, ⟨ha, by omega⟩, heq⟩

/-- A store into the block of a live area reaches no header. -/
theorem Blocked.store {x : Nat} {hd : BuddyHeader} (h : Blocked p s blk)
    (hc : s.KeepsToLive (.store x hd)) (hcall : s.call (.store x hd) = .ok s') :
    Blocked p s' blk := by
  obtain ⟨a, ha, hle, hlt⟩ := hc
  obtain ⟨o, k, hptr, ho⟩ := (h.live a.1).mp ⟨a, ha, rfl⟩
  have hin := h.table.tiles.inside ho
  have hsize := header_size (h.table.tiles.order ho).1
  rw [hptr, Nat.add_sub_cancel, h.table.headers ho] at hlt
  dsimp only at hlt
  obtain rfl := Except.ok.inj hcall
  refine ⟨⟨h.table.tiles, fun {y k' u'} hy => ?_, ?_, h.table.length, h.table.listed⟩,
    h.coalesced, h.live⟩
  · unfold Buddy.setHeader
    dsimp only
    rw [Function.update_of_ne]
    · exact h.table.headers hy
    · rintro rfl
      have hpos := Nat.two_pow_pos k'
      have heq := h.table.tiles.disjoint hy ho le_rfl (by omega) (by omega) (by omega)
      omega
  · unfold Buddy.setHeader
    dsimp only
    rw [Function.update_of_ne (by omega)]
    exact h.table.behind

theorem Blocked.call {c : BuddyCall} (h : Blocked p s blk) (hc : s.KeepsToLive c)
    (hcall : s.call c = .ok s') : ∃ blk', Blocked p s' blk' := by
  cases c with
  | alloc size => exact h.alloc hcall
  | free ptr => exact h.free hc hcall
  | store x hd => exact ⟨blk, h.store hc hcall⟩

theorem Blocked.alongInside_iff {calls : List BuddyCall} (h : Blocked p s blk)
    (hc : AlongList BuddyRun.call KeepsToLive s calls) :
    AlongList BuddyRun.call (fun s c => ∀ a ∈ s.accesses c, a.Inside p) s calls ↔
      AlongList BuddyRun.call (LeavesLive p) s calls := by
  induction calls generalizing s blk with
  | nil => exact Iff.rfl
  | cons c calls ih =>
      refine and_congr (h.inside_iff hc.1) (forall_congr' fun s' => forall_congr' fun hcall => ?_)
      obtain ⟨blk', h'⟩ := h.call hc.1 hcall
      exact ih h' (hc.2 s' hcall)

theorem blocked_start {powerOfTwo : Nat} (ht : Buddy.createBuddyTable powerOfTwo = .ok t) :
    Blocked (arenaOrder powerOfTwo) ⟨t, []⟩ (primordial (arenaOrder powerOfTwo)) := by
  have hlt : powerOfTwo < 31 := by
    by_contra hge
    rw [createBuddyTable_eq_error powerOfTwo (by omega)] at ht
    cases ht
  obtain ⟨t', ht', -, hinv⟩ := createBuddyTable_ok powerOfTwo hlt
  rw [ht, Except.ok.injEq] at ht'
  subst ht'
  refine ⟨hinv, primordial_coalesced _, fun ptr => ?_⟩
  refine iff_of_false (fun ⟨a, ha, _⟩ => by cases ha) ?_
  rintro ⟨o, k, -, ho⟩
  unfold primordial at ho
  by_cases ho0 : o = 0
  · rw [ho0, Function.update_self] at ho
    cases ho
  · rw [Function.update_of_ne ho0] at ho
    cases ho

/-- From the table made, the accesses of `buddy_free` and `buddy_try_merge` stay in the arena
and the valid buckets just if every `buddy_free` leaves another area live or frees a block
that is the whole arena. -/
theorem merge_inside_iff (powerOfTwo : Nat) (t : Buddy)
    (ht : Buddy.createBuddyTable powerOfTwo = .ok t) (calls : List BuddyCall)
    (hc : AlongList BuddyRun.call KeepsToLive ⟨t, []⟩ calls) :
    AlongList BuddyRun.call
        (fun s c => ∀ a ∈ s.accesses c, a.Inside (arenaOrder powerOfTwo)) ⟨t, []⟩ calls ↔
      AlongList BuddyRun.call (LeavesLive (arenaOrder powerOfTwo)) ⟨t, []⟩ calls :=
  (blocked_start ht).alongInside_iff hc

theorem merge_inside_iff_two_areas :
    AlongList BuddyRun.call (fun s c => ∀ a ∈ s.accesses c, a.Inside (arenaOrder 8))
        ⟨tableEight, []⟩ [.alloc 40, .alloc 10, .free 32] ↔
      AlongList BuddyRun.call (LeavesLive (arenaOrder 8)) ⟨tableEight, []⟩
        [.alloc 40, .alloc 10, .free 32] := by
  refine merge_inside_iff 8 tableEight rfl _ ?_
  have hrun : (runList (checked BuddyRun.call fun s c => decide (s.KeepsToLive c))
      ⟨tableEight, []⟩ [.alloc 40, .alloc 10, .free 32]).isOk = true := by
    decide +kernel
  exact AlongList.of_checked (fun _ _ h => of_decide_eq_true h) hrun

/-- One area is made and freed, and the merges look at the header behind the arena. -/
theorem not_merge_inside_one_area :
    Buddy.createBuddyTable 8 = .ok tableEight ∧
    AlongList BuddyRun.call KeepsToLive ⟨tableEight, []⟩ [.alloc 10, .free 32] ∧
    ¬ AlongList BuddyRun.call (fun s c => ∀ a ∈ s.accesses c, a.Inside (arenaOrder 8))
        ⟨tableEight, []⟩ [.alloc 10, .free 32] := by
  obtain ⟨s, hs, hmem⟩ : ∃ s, BuddyRun.call ⟨tableEight, []⟩ (.alloc 10) = .ok s ∧
      decide (.header 256 ∈ s.accesses (.free 32)) = true :=
    exists_ok_of_any (by decide +kernel)
  refine ⟨rfl, ?_, fun h => ?_⟩
  · have hrun : (runList (checked BuddyRun.call fun s c => decide (s.KeepsToLive c))
        ⟨tableEight, []⟩ [.alloc 10, .free 32]).isOk = true := by
      decide +kernel
    exact AlongList.of_checked (fun _ _ h => of_decide_eq_true h) hrun
  · have hin := (h.2 s hs).1 _ (of_decide_eq_true hmem)
    revert hin
    decide

end BuddyRun

end Ross

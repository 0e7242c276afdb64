import Ross.Core.Buddy
import Ross.Lib.BitSmear
import Ross.Lib.BuddyTiling
import Ross.Lib.Transition

/-!
# The buddy allocator keeps its tiling

The blocks are the ghost of the memory: a map from the starts of the blocks to their
orders and uses.  The headers at the starts tell it truthfully, and a block starts at
the address of every buddy, so the test before a merge finds out what is there.
-/

namespace Ross

open BitSmear BuddyTiling Transition

/-! ## Sizes -/

/-- `next_power2` rounds up to a power of two, on 32 bits. -/
theorem nextPower2_eq {v : Nat} (hv : v < 2 ^ 32) :
    ∃ k, 6 ≤ k ∧ nextPower2 v = 2 ^ k % 4294967296 ∧ v ≤ 2 ^ k ∧ (k = 6 ∨ 2 ^ k < 2 * v) := by
  unfold nextPower2 buddyBlockOrder
  by_cases hlt : v < 2 ^ 6
  · rw [if_pos hlt]
    exact ⟨6, le_rfl, rfl, hlt.le, .inl rfl⟩
  · rw [if_neg hlt]
    have hlow : 2 ^ 6 - 1 ≤ v - 1 := by omega
    have hne : v - 1 ≠ 0 := by omega
    obtain ⟨m, hm⟩ : ∃ m, (v - 1).log2 = m := ⟨_, rfl⟩
    have h1 : 2 ^ m ≤ v - 1 := hm ▸ Nat.log2_self_le hne
    have h2 : v - 1 < 2 ^ (m + 1) := hm ▸ Nat.lt_log2_self
    have hm5 : 5 ≤ m := by
      by_contra hlt5
      have hle : 2 ^ (m + 1) ≤ 2 ^ 5 := Nat.pow_le_pow_right Nat.two_pos (by omega)
      omega
    have hm31 : m ≤ 31 := by
      by_contra hgt
      have hle : 2 ^ 32 ≤ 2 ^ m := Nat.pow_le_pow_right Nat.two_pos (by omega)
      omega
    have hcov := ((((covers_one (v - 1)).smear).smear).smear).smear.smear
    have heq := hcov.eq h1 h2 (by omega)
    have hpos : 0 < 2 ^ (m + 1) := Nat.two_pow_pos _
    have hpow : 2 ^ (m + 1) = 2 ^ m * 2 := pow_succ 2 m
    refine ⟨m + 1, by omega, ?_, by omega, .inr (by omega)⟩
    dsimp only
    simp only [smear, Nat.mul_one, show 2 * 2 = 4 from rfl, show 2 * 4 = 8 from rfl,
      show 2 * 8 = 16 from rfl] at heq
    rw [heq, Nat.sub_add_cancel hpos]

/-- `next_power2` of a size of at most `2 ^ 31`. -/
theorem nextPower2_ok {v : Nat} (hv : v ≤ 2 ^ 31) :
    ∃ k, 6 ≤ k ∧ k ≤ 31 ∧ nextPower2 v = 2 ^ k ∧ v ≤ 2 ^ k ∧ (k = 6 ∨ 2 ^ k < 2 * v) := by
  obtain ⟨k, hk6, heq, hle, hlt⟩ := nextPower2_eq (v := v) (by omega)
  have hk31 : k ≤ 31 := by
    by_contra hgt
    have hpow : 2 ^ 32 ≤ 2 ^ k := Nat.pow_le_pow_right Nat.two_pos (by omega)
    omega
  have hpow : 2 ^ k ≤ 2 ^ 31 := Nat.pow_le_pow_right Nat.two_pos hk31
  rw [Nat.mod_eq_of_lt (by omega)] at heq
  exact ⟨k, hk6, hk31, heq, hle, hlt⟩

/-- `next_power2` gives a power of two, or 0 for a size above `2 ^ 31`. -/
theorem nextPower2_cases {v : Nat} (hv : v < 2 ^ 32) :
    nextPower2 v = 0 ∨ ∃ k, 6 ≤ k ∧ nextPower2 v = 2 ^ k := by
  obtain ⟨k, hk6, heq, -, -⟩ := nextPower2_eq hv
  by_cases hk : k < 32
  · have hpow : 2 ^ k ≤ 2 ^ 31 := Nat.pow_le_pow_right Nat.two_pos (by omega)
    rw [Nat.mod_eq_of_lt (by omega)] at heq
    exact .inr ⟨k, hk6, heq⟩
  · left
    rw [heq]
    exact Nat.mod_eq_zero_of_dvd (pow_dvd_pow 2 (show 32 ≤ k by omega))

/-- The size in the header of a block of order `k` rounds up to the block. -/
theorem nextPower2_header {k : Nat} (h6 : 6 ≤ k) (h30 : k ≤ 30) :
    nextPower2 (2 ^ k - sizeofBuddyList) = 2 ^ k := by
  have hle : 2 ^ k ≤ 2 ^ 30 := Nat.pow_le_pow_right Nat.two_pos h30
  have hge : 2 ^ 6 ≤ 2 ^ k := Nat.pow_le_pow_right Nat.two_pos h6
  obtain ⟨j, hj6, -, heq, hle', hlt⟩ := nextPower2_ok (v := 2 ^ k - sizeofBuddyList)
    (by unfold sizeofBuddyList; omega)
  rw [heq]
  unfold sizeofBuddyList at hle' hlt
  congr 1
  rcases Nat.lt_trichotomy j k with hjk | hjk | hjk
  · have hpow : 2 ^ (j + 1) ≤ 2 ^ k := Nat.pow_le_pow_right Nat.two_pos hjk
    have hj : 2 ^ 6 ≤ 2 ^ j := Nat.pow_le_pow_right Nat.two_pos hj6
    rw [pow_succ] at hpow
    omega
  · exact hjk
  · have hpow : 2 ^ (k + 1) ≤ 2 ^ j := Nat.pow_le_pow_right Nat.two_pos hjk
    rw [pow_succ] at hpow
    rcases hlt with rfl | hlt
    · omega
    · omega

/-! ## The lists of the buckets -/

/-- The bucket of order `i + 6` lists the blocks that `F` has of this order. -/
structure BucketOk (F : Nat → Nat → Prop) (i : Nat) (b : Bucket) : Prop where
  order : b.order = i + 6
  nodup : b.ptr.Nodup
  mem : ∀ o, o ∈ b.ptr ↔ F o (i + 6)
  count : b.count = b.ptr.length

/-- Every bucket lists its blocks. -/
def Listed (F : Nat → Nat → Prop) (buckets : List Bucket) : Prop :=
  ∀ (i : Nat) (b : Bucket), buckets[i]? = some b → BucketOk F i b

variable {F G : Nat → Nat → Prop} {i j o : Nat} {b : Bucket} {buckets : List Bucket}

/-- One bucket changes. -/
theorem Listed.set (h : Listed F buckets) (hb : BucketOk G i b)
    (hother : ∀ j, j ≠ i → ∀ o, G o (j + 6) ↔ F o (j + 6)) : Listed G (buckets.set i b) := by
  intro j b' hj
  by_cases hij : j = i
  · subst hij
    rw [List.getElem?_set_self'] at hj
    cases hget : buckets[j]? with
    | none => rw [hget] at hj; cases hj
    | some x =>
        rw [hget] at hj
        cases hj
        exact hb
  · rw [List.getElem?_set_ne (Ne.symm hij)] at hj
    have hok := h j b' hj
    exact ⟨hok.order, hok.nodup, fun o => (hok.mem o).trans (hother j hij o).symm, hok.count⟩

theorem BucketOk.erase (h : BucketOk F i b) (ho : o ∈ b.ptr)
    (hG : ∀ x, G x (i + 6) ↔ F x (i + 6) ∧ x ≠ o) :
    BucketOk G i { b with ptr := b.ptr.erase o, count := b.count - 1 } := by
  refine ⟨h.order, h.nodup.erase o, fun x => ?_, ?_⟩
  · rw [h.nodup.mem_erase_iff, h.mem, hG]
    exact and_comm
  · have hlen := List.length_erase_of_mem ho
    have hpos : 0 < b.ptr.length := List.length_pos_of_mem ho
    have hcount := h.count
    dsimp only
    omega

theorem BucketOk.pop {rest : List Nat} (h : BucketOk F i b) (ho : b.ptr = o :: rest)
    (hG : ∀ x, G x (i + 6) ↔ F x (i + 6) ∧ x ≠ o) :
    BucketOk G i { b with ptr := rest, count := b.count - 1 } := by
  have herase : b.ptr.erase o = rest := by rw [ho, List.erase_cons_head]
  have hok := h.erase (o := o) (by rw [ho]; exact List.mem_cons_self) hG
  rw [herase] at hok
  exact hok

theorem BucketOk.push (h : BucketOk F i b) (ho : ¬ F o (i + 6))
    (hG : ∀ x, G x (i + 6) ↔ x = o ∨ F x (i + 6)) :
    BucketOk G i { b with ptr := o :: b.ptr, count := b.count + 1 } := by
  refine ⟨h.order, List.nodup_cons.mpr ⟨fun hmem => ho ((h.mem o).mp hmem), h.nodup⟩,
    fun x => ?_, ?_⟩
  · rw [List.mem_cons, h.mem, hG]
  · rw [List.length_cons, h.count, Nat.cast_add, Nat.cast_one]

/-- The bucket of a size is found. -/
theorem findBucket_ok {t : Buddy} (h : Listed F t.buckets) {k : Nat} (h6 : 6 ≤ k)
    (hk : k < t.buckets.length + 6) : t.findBucket (2 ^ k) = some (k - 6) := by
  unfold Buddy.findBucket
  rw [List.findIdx?_eq_some_iff_getElem]
  have horder : ∀ (i : Nat) (hi : i < t.buckets.length), t.buckets[i].order = i + 6 :=
    fun i hi => (h i _ (List.getElem?_eq_getElem hi)).order
  refine ⟨by omega, ?_, fun j hj => ?_⟩
  · rw [decide_eq_true_eq, horder]
    exact Nat.pow_le_pow_right Nat.two_pos (by omega)
  · rw [decide_eq_true_eq, horder, not_le]
    exact Nat.pow_lt_pow_right Nat.one_lt_two (by omega)

theorem findBucket_eq_none {t : Buddy} (h : Listed F t.buckets) {k : Nat}
    (hk : t.buckets.length + 6 ≤ k) : t.findBucket (2 ^ k) = none := by
  unfold Buddy.findBucket
  rw [List.findIdx?_eq_none_iff]
  intro b hb
  obtain ⟨i, hi⟩ := List.mem_iff_getElem?.mp hb
  have hlt : i < t.buckets.length := (List.getElem?_eq_some_iff.mp hi).1
  rw [decide_eq_false_iff_not, (h i b hi).order, not_le]
  exact Nat.pow_lt_pow_right Nat.one_lt_two (by omega)

/-! ## The invariant -/

/-- A free block of the tiling. -/
def FreeBlock (blk : Blocks Purpose) (o k : Nat) : Prop := blk o = some (k, .free)

/-- The headers and the lists are those of the blocks, which tile the arena, and the
memory behind the arena is clear. -/
structure BuddyInv (p : Nat) (t : Buddy) (blk : Blocks Purpose) : Prop where
  tiles : Tiles 6 p blk
  headers : ∀ {o k u}, blk o = some (k, u) → t.mem o = ⟨2 ^ k - sizeofBuddyList, u⟩
  behind : t.mem (2 ^ p) = ⟨0, .free⟩
  length : t.buckets.length + 5 = p
  listed : Listed (FreeBlock blk) t.buckets

/-- Two free buddies are only together at `x`. -/
def CoalescedBut (p : Nat) (blk : Blocks Purpose) (x : Nat) : Prop :=
  ∀ o k, k < p → FreeBlock blk o k → FreeBlock blk (o ^^^ 2 ^ k) k → o = x ∨ o ^^^ 2 ^ k = x

/-- No two free blocks are buddies. -/
def Coalesced (p : Nat) (blk : Blocks Purpose) : Prop :=
  ∀ o k, k < p → FreeBlock blk o k → ¬ FreeBlock blk (o ^^^ 2 ^ k) k

/-- The used blocks are the same. -/
def SameUsed (blk blk' : Blocks Purpose) : Prop :=
  ∀ x k, blk' x = some (k, .used) ↔ blk x = some (k, .used)

variable {p k : Nat} {t : Buddy} {blk : Blocks Purpose} {u : Purpose}

theorem FreeBlock.order_eq {k' : Nat} (h : FreeBlock blk o k') (ho : blk o = some (k, u)) :
    k' = k ∧ u = .free := by
  unfold FreeBlock at h
  rw [ho, Option.some.injEq, Prod.mk.injEq] at h
  exact ⟨h.1.symm, h.2⟩

theorem Coalesced.but (h : Coalesced p blk) (x : Nat) : CoalescedBut p blk x :=
  fun o k hk ho hb => absurd hb (h o k hk ho)

/-- A block that is not free has no part in free buddies. -/
theorem CoalescedBut.coalesced (h : CoalescedBut p blk o) (ho : ∀ k, ¬ FreeBlock blk o k) :
    Coalesced p blk := by
  intro x k hk hx hb
  rcases h x k hk hx hb with rfl | rfl
  · exact ho k hx
  · exact ho k hb

theorem BuddyInv.bucket (h : BuddyInv p t blk) (ho : blk o = some (k, u)) :
    ∃ b, t.buckets[k - 6]? = some b ∧ BucketOk (FreeBlock blk) (k - 6) b ∧ k - 6 + 6 = k := by
  have hord := h.tiles.order ho
  have hlen := h.length
  have hlt : k - 6 < t.buckets.length := by omega
  have hget := List.getElem?_eq_getElem hlt
  exact ⟨_, hget, h.listed _ _ hget, by omega⟩

theorem BuddyInv.find (h : BuddyInv p t blk) (ho : blk o = some (k, u)) :
    t.findBucket (2 ^ k) = some (k - 6) := by
  have hord := h.tiles.order ho
  have hlen := h.length
  exact findBucket_ok h.listed hord.1 (by omega)

/-- The size in a header and the header make up the block. -/
theorem header_size (h6 : 6 ≤ k) : 2 ^ k - sizeofBuddyList + sizeofBuddyList = 2 ^ k := by
  have hge : 2 ^ 6 ≤ 2 ^ k := Nat.pow_le_pow_right Nat.two_pos h6
  unfold sizeofBuddyList
  omega

/-- A header is written at the start of a block that is new or changed. -/
theorem BuddyInv.change {blk' : Blocks Purpose} {t' : Buddy} (h : BuddyInv p t blk)
    (htiles : Tiles 6 p blk') (ho : blk' o = some (k, u))
    (hother : ∀ x k' u', x ≠ o → blk' x = some (k', u') → blk x = some (k', u'))
    (hmem : t'.mem = Function.update t.mem o ⟨2 ^ k - sizeofBuddyList, u⟩)
    (hlength : t'.buckets.length = t.buckets.length)
    (hlisted : Listed (FreeBlock blk') t'.buckets) : BuddyInv p t' blk' := by
  refine ⟨htiles, fun {x k' u'} hx => ?_, ?_, ?_, hlisted⟩
  · by_cases hxo : x = o
    · subst hxo
      rw [ho, Option.some.injEq, Prod.mk.injEq] at hx
      obtain ⟨rfl, rfl⟩ := hx
      rw [hmem, Function.update_self]
    · rw [hmem, Function.update_of_ne hxo]
      exact h.headers (hother x k' u' hxo hx)
  · rw [hmem, Function.update_of_ne (htiles.lt ho).ne']
    exact h.behind
  · rw [hlength]
    exact h.length

/-- The place behind a header is cleared up to the end of the block. -/
theorem BuddyInv.clear (h : BuddyInv p t blk) (ho : blk o = some (k, u)) :
    BuddyInv p (t.clear o (2 ^ k - sizeofBuddyList)) blk := by
  have hsize := header_size (h.tiles.order ho).1
  have hin := h.tiles.inside ho
  refine ⟨h.tiles, fun {x k' u'} hx => ?_, ?_, h.length, h.listed⟩
  · unfold Buddy.clear
    dsimp only
    rw [if_neg]
    · exact h.headers hx
    · rintro ⟨hle, hlt⟩
      have hpos := Nat.two_pow_pos k'
      have heq := h.tiles.disjoint hx ho le_rfl (by omega) (by omega) (by omega)
      unfold sizeofBuddyList at hle
      omega
  · unfold Buddy.clear
    dsimp only
    rw [if_neg (by omega)]
    exact h.behind

/-! ## Allocation -/

/-- A split of the first block of a bucket. -/
theorem buddySplit_ok {rest : List Nat} (h : BuddyInv p t blk) (hc : CoalescedBut p blk o)
    (hb : t.buckets[i + 1]? = some b) (hptr : b.ptr = o :: rest) :
    ∃ t' b', Buddy.buddySplit (i + 1) t = .ok t' ∧ t'.buckets[i]? = some b' ∧
      b'.ptr.head? = some o ∧ BuddyInv p t' (split blk o (i + 6) .free) ∧
      CoalescedBut p (split blk o (i + 6) .free) o ∧
      SameUsed blk (split blk o (i + 6) .free) := by
  have hok := h.listed _ _ hb
  have ho : blk o = some (i + 6 + 1, .free) := by
    refine (hok.mem o).mp ?_
    rw [hptr]
    exact List.mem_cons_self
  have hpos : 0 < 2 ^ (i + 6) := Nat.two_pow_pos _
  have hpow : 2 ^ (i + 6 + 1) = 2 ^ (i + 6) * 2 := pow_succ 2 _
  have hin := h.tiles.inside ho
  -- nothing starts inside the block
  have hnew : ∀ k' u', blk (o + 2 ^ (i + 6)) ≠ some (k', u') := by
    intro k' u' hx
    have heq := h.tiles.disjoint hx ho le_rfl (by have := Nat.two_pow_pos k'; omega) (by omega)
      (by omega)
    omega
  have hlt : i < t.buckets.length := by
    have := (List.getElem?_eq_some_iff.mp hb).1
    omega
  have hget := List.getElem?_eq_getElem hlt
  have hlow := h.listed _ _ hget
  have hcount : b.count ≠ 0 := by
    rw [hok.count, hptr, List.length_cons]
    omega
  have hset : (t.setBucket (i + 1) { b with ptr := rest, count := b.count - 1 }).buckets[i]? =
      some t.buckets[i] := by
    unfold Buddy.setBucket
    rw [List.getElem?_set_ne (by omega)]
    exact hget
  have hrun : Buddy.buddySplit (i + 1) t = .ok ((((t.setBucket (i + 1)
      { b with ptr := rest, count := b.count - 1 }).setHeader o
        ⟨2 ^ (i + 6) - sizeofBuddyList, .free⟩).setHeader (o + 2 ^ (i + 6))
        ⟨2 ^ (i + 6) - sizeofBuddyList, .free⟩).setBucket i { t.buckets[i] with
          ptr := o :: (o + 2 ^ (i + 6)) :: t.buckets[i].ptr
          count := t.buckets[i].count + 2 }) := by
    unfold Buddy.buddySplit
    rw [hb]
    dsimp only
    rw [if_neg hcount, hptr]
    dsimp only
    rw [hset]
    dsimp only
    rw [hlow.order, if_neg (by omega)]
  refine ⟨_, { t.buckets[i] with
      ptr := o :: (o + 2 ^ (i + 6)) :: t.buckets[i].ptr
      count := t.buckets[i].count + 2 }, hrun, ?_, rfl,
    ⟨h.tiles.split ho (by omega) .free, fun {x k' u'} hx => ?_, ?_, ?_, ?_⟩, ?_, ?_⟩
  · exact List.getElem?_set_self (by
      unfold Buddy.setHeader Buddy.setBucket
      rw [List.length_set]
      exact hlt)
  · unfold Buddy.setBucket Buddy.setHeader
    dsimp only
    rcases split_cases hx with ⟨rfl | rfl, rfl, rfl⟩ | ⟨h₁, h₂, hx⟩
    · rw [Function.update_of_ne (by omega), Function.update_self]
    · rw [Function.update_self]
    · rw [Function.update_of_ne h₂, Function.update_of_ne h₁]
      exact h.headers hx
  · unfold Buddy.setBucket Buddy.setHeader
    dsimp only
    rw [Function.update_of_ne (by omega), Function.update_of_ne (by omega)]
    exact h.behind
  · unfold Buddy.setBucket Buddy.setHeader
    dsimp only
    rw [List.length_set, List.length_set]
    exact h.length
  · -- the block leaves its bucket, then its halves come into the lower one
    have hup : BucketOk (fun x k => FreeBlock blk x k ∧ x ≠ o) (i + 1)
        { b with ptr := rest, count := b.count - 1 } := hok.pop hptr fun x => Iff.rfl
    have hfree : ∀ x k', FreeBlock (split blk o (i + 6) .free) x k' ↔
        (x = o ∨ x = o + 2 ^ (i + 6)) ∧ k' = i + 6 ∨ FreeBlock blk x k' ∧ x ≠ o := by
      intro x k'
      constructor
      · intro hx
        rcases split_cases hx with ⟨hxo, hk, -⟩ | ⟨hne, -, hx⟩
        · exact .inl ⟨hxo, hk⟩
        · exact .inr ⟨hx, hne⟩
      · rintro (⟨rfl | rfl, rfl⟩ | ⟨hx, hne⟩)
        · exact split_first _ _ _ _
        · exact split_second _ _ _ _
        · unfold FreeBlock
          rw [split_of_ne hne (fun heq => hnew _ _ (heq ▸ hx))]
          exact hx
    have hmid := h.listed.set hup fun j hj x => by
      constructor
      · exact fun hx => hx.1
      · intro hx
        refine ⟨hx, ?_⟩
        rintro rfl
        have hk := (hx.order_eq ho).1
        omega
    refine hmid.set ⟨hlow.order, ?_, fun x => ?_, ?_⟩ fun j hj x => ?_
    · have hmem : ∀ x, x ∈ t.buckets[i].ptr → x ≠ o ∧ x ≠ o + 2 ^ (i + 6) := by
        intro x hx
        have hxf := (hlow.mem x).mp hx
        refine ⟨?_, fun heq => hnew _ _ (heq ▸ hxf)⟩
        rintro rfl
        have hk := (hxf.order_eq ho).1
        omega
      refine List.nodup_cons.mpr ⟨?_, List.nodup_cons.mpr ⟨fun hx => (hmem _ hx).2 rfl, hlow.nodup⟩⟩
      rw [List.mem_cons, not_or]
      exact ⟨by omega, fun hx => (hmem _ hx).1 rfl⟩
    · rw [List.mem_cons, List.mem_cons, hlow.mem, hfree]
      constructor
      · rintro (rfl | rfl | hx)
        · exact .inl ⟨.inl rfl, rfl⟩
        · exact .inl ⟨.inr rfl, rfl⟩
        · refine .inr ⟨hx, ?_⟩
          rintro rfl
          have hk := (FreeBlock.order_eq hx ho).1
          omega
      · rintro (⟨rfl | rfl, -⟩ | ⟨hx, -⟩)
        · exact .inl rfl
        · exact .inr (.inl rfl)
        · exact .inr (.inr hx)
    · dsimp only
      rw [hlow.count, List.length_cons, List.length_cons]
      omega
    · rw [hfree]
      constructor
      · rintro (⟨-, hk⟩ | hx)
        · omega
        · exact hx
      · exact .inr
  · intro x k' hk' hx hb'
    rcases split_cases hx with ⟨rfl | rfl, rfl, -⟩ | ⟨h₁, h₂, hx⟩
    · exact .inl rfl
    · -- the halves are each other's buddies
      right
      rw [← xor_first (h.tiles.aligned ho), xor_xor_two_pow]
    · rcases split_cases hb' with ⟨hxo, rfl, -⟩ | ⟨-, -, hb'⟩
      · rcases hxo with hxo | hxo
        · exact .inr hxo
        · refine absurd ?_ h₁
          rw [← xor_xor_two_pow x (i + 6), hxo, ← xor_first (h.tiles.aligned ho), xor_xor_two_pow]
      · exact hc x k' hk' hx hb'
  · intro x k'
    constructor
    · intro hx
      rcases split_cases hx with ⟨-, -, hu⟩ | ⟨-, -, hx⟩
      · cases hu
      · exact hx
    · intro hx
      rw [split_of_ne (fun heq => ?_) (fun heq => hnew _ _ (heq ▸ hx))]
      · exact hx
      · subst heq
        rw [ho] at hx
        cases hx

/-- The splits of `buddy_alloc` leave the first half at the head of each bucket. -/
theorem splitLoop_ok : ∀ (n : Nat) {t : Buddy} {blk : Blocks Purpose} {b : Bucket}
    {rest : List Nat}, BuddyInv p t blk → CoalescedBut p blk o →
    t.buckets[i + n]? = some b → b.ptr = o :: rest →
    ∃ t' b' rest' blk', Buddy.splitLoop n (i + n) t = .ok t' ∧ t'.buckets[i]? = some b' ∧
      b'.ptr = o :: rest' ∧ BuddyInv p t' blk' ∧ CoalescedBut p blk' o ∧ SameUsed blk blk' := by
  intro n
  induction n with
  | zero =>
      intro t blk b rest h hc hb hptr
      exact ⟨t, b, rest, blk, rfl, hb, hptr, h, hc, fun x k => Iff.rfl⟩
  | succ n ih =>
      intro t blk b rest h hc hb hptr
      obtain ⟨t₁, b₁, hrun, hb₁, hhead, h₁, hc₁, hsame₁⟩ := buddySplit_ok (i := i + n) h hc hb hptr
      obtain ⟨rest₁, hptr₁⟩ := List.head?_eq_some_iff.mp hhead
      obtain ⟨t', b', rest', blk', hrun', hb', hptr', h', hc', hsame'⟩ := ih h₁ hc₁ hb₁ hptr₁
      refine ⟨t', b', rest', blk', ?_, hb', hptr', h', hc', fun x k => ?_⟩
      · rw [Buddy.splitLoop, show i + (n + 1) = i + n + 1 from rfl, hrun]
        exact hrun'
      · rw [hsame', hsame₁]

/-- The block taken is in use. -/
theorem takeFirst_ok {rest : List Nat} (h : BuddyInv p t blk) (hc : CoalescedBut p blk o)
    (hb : t.buckets[i]? = some b) (hptr : b.ptr = o :: rest) :
    ∃ t', Buddy.takeFirst i t = .ok (o + sizeofBuddyList, t') ∧
      BuddyInv p t' (Function.update blk o (some (i + 6, .used))) ∧
      Coalesced p (Function.update blk o (some (i + 6, .used))) := by
  have hok := h.listed _ _ hb
  have ho : blk o = some (i + 6, .free) := (hok.mem o).mp (by rw [hptr]; exact List.mem_cons_self)
  have hfree : ∀ x k', FreeBlock (Function.update blk o (some (i + 6, .used))) x k' ↔
      FreeBlock blk x k' ∧ x ≠ o := by
    intro x k'
    by_cases hx : x = o
    · subst hx
      unfold FreeBlock
      rw [Function.update_self]
      simp
    · unfold FreeBlock
      rw [Function.update_of_ne hx]
      exact (and_iff_left hx).symm
  have hrun : Buddy.takeFirst i t = .ok (o + sizeofBuddyList,
      (t.setHeader o { t.mem o with use := .used }).setBucket i
        { b with ptr := rest, count := b.count - 1 }) := by
    unfold Buddy.takeFirst
    rw [hb]
    dsimp only
    rw [hptr]
  refine ⟨_, hrun, h.change (h.tiles.relabel ho .used) (Function.update_self _ _ _)
    (fun x k' u' hxo hx => ?_) ?_ (List.length_set ..) ?_, ?_⟩
  · rw [Function.update_of_ne hxo] at hx
    exact hx
  · unfold Buddy.setBucket Buddy.setHeader
    dsimp only
    rw [h.headers ho]
  · refine h.listed.set (hok.pop hptr fun x => hfree x _) fun j hj x => ?_
    rw [hfree]
    refine and_iff_left_of_imp fun hx => ?_
    rintro rfl
    have hk := (hx.order_eq ho).1
    omega
  · refine CoalescedBut.coalesced (o := o) (fun x k' hk hx hbud => ?_) fun k' hx => ?_
    · exact hc x k' hk ((hfree x k').mp hx).1 ((hfree _ k').mp hbud).1
    · exact ((hfree o k').mp hx).2 rfl

/-- An allocation takes a free block of the order of its bucket, or there is none of this
order or a larger one. -/
theorem buddyAlloc_order {size : Nat} (h : BuddyInv p t blk) (hc : Coalesced p blk) (hk6 : 6 ≤ k)
    (hsize : t.findBucket (nextPower2 ((size + sizeofBuddyList) % 4294967296)) =
      t.findBucket (2 ^ k)) :
    (t.buddyAlloc size = .error .increaseBuddySize ∧ ∀ x k', FreeBlock blk x k' → k' < k) ∨
    ∃ o t' blk', t.buddyAlloc size = .ok (o + sizeofBuddyList, t') ∧ BuddyInv p t' blk' ∧
      Coalesced p blk' ∧ (∀ k', blk o ≠ some (k', .used)) ∧
      ∀ x k', blk' x = some (k', .used) ↔ x = o ∧ k' = k ∨ blk x = some (k', .used) := by
  have hlen := h.length
  unfold Buddy.buddyAlloc
  dsimp only
  rw [hsize]
  by_cases hkp : t.buckets.length + 6 ≤ k
  · rw [findBucket_eq_none h.listed hkp]
    refine .inl ⟨rfl, fun x k' hx => ?_⟩
    have hord := h.tiles.order hx
    omega
  · rw [findBucket_ok h.listed hk6 (by omega)]
    dsimp only
    cases hfind : (t.buckets.drop (k - 6)).findIdx? (fun b => decide (b.count ≠ 0)) with
    | none =>
        refine .inl ⟨rfl, fun x k' hx => ?_⟩
        by_contra hge
        rw [List.findIdx?_eq_none_iff] at hfind
        obtain ⟨b, hget, hok, heq⟩ := h.bucket hx
        have hmem : b ∈ t.buckets.drop (k - 6) := by
          refine List.mem_iff_getElem?.mpr ⟨k' - k, ?_⟩
          rw [List.getElem?_drop, show k - 6 + (k' - k) = k' - 6 by omega]
          exact hget
        have hzero := hfind b hmem
        rw [decide_eq_false_iff_not, not_not, hok.count] at hzero
        have hx' : x ∈ b.ptr := (hok.mem x).mpr (by rw [heq]; exact hx)
        have hpos := List.length_pos_of_mem hx'
        omega
    | some n =>
        right
        dsimp only
        rw [List.findIdx?_eq_some_iff_getElem] at hfind
        obtain ⟨hn, hcount, -⟩ := hfind
        rw [decide_eq_true_eq] at hcount
        obtain ⟨b, hget⟩ : ∃ b, t.buckets[k - 6 + n]? = some b := by
          rw [← List.getElem?_drop]
          exact ⟨_, List.getElem?_eq_getElem hn⟩
        have hb : (t.buckets.drop (k - 6))[n] = b := by
          have h' := List.getElem?_eq_getElem hn
          rw [List.getElem?_drop, hget] at h'
          exact (Option.some.inj h').symm
        rw [hb] at hcount
        have hok := h.listed _ _ hget
        obtain ⟨o, rest, hptr⟩ : ∃ o rest, b.ptr = o :: rest := by
          rw [hok.count] at hcount
          exact List.exists_cons_of_length_pos (by omega)
        obtain ⟨t₁, b₁, rest₁, blk₁, hrun, hb₁, hptr₁, h₁, hc₁, hsame⟩ :=
          splitLoop_ok n h (hc.but o) hget hptr
        obtain ⟨t₂, hrun₂, h₂, hc₂⟩ := takeFirst_ok h₁ hc₁ hb₁ hptr₁
        have ho : blk₁ o = some (k - 6 + 6, .free) :=
          ((h₁.listed _ _ hb₁).mem o).mp (by rw [hptr₁]; exact List.mem_cons_self)
        have hkk : k - 6 + 6 = k := by omega
        refine ⟨o, t₂, _, ?_, h₂, hc₂, fun k' hused => ?_, fun x k' => ?_⟩
        · rw [hrun]
          exact hrun₂
        · have hused' := (hsame o k').mpr hused
          rw [ho] at hused'
          cases hused'
        · rw [hkk]
          by_cases hx : x = o
          · subst hx
            rw [Function.update_self, Option.some.injEq, Prod.mk.injEq, ← hsame, ho]
            simp [eq_comm]
          · rw [Function.update_of_ne hx, hsame]
            simp [hx]

/-- An allocation takes a free block that is large enough, or there is none. -/
theorem buddyAlloc_ok {size : Nat} (h : BuddyInv p t blk) (hc : Coalesced p blk)
    (hsize : size + sizeofBuddyList ≤ 2 ^ 31) :
    (t.buddyAlloc size = .error .increaseBuddySize ∧
      ∀ x k, FreeBlock blk x k → 2 ^ k < size + sizeofBuddyList) ∨
    ∃ o k t' blk', t.buddyAlloc size = .ok (o + sizeofBuddyList, t') ∧ BuddyInv p t' blk' ∧
      Coalesced p blk' ∧ size + sizeofBuddyList ≤ 2 ^ k ∧ (∀ k', blk o ≠ some (k', .used)) ∧
      ∀ x k', blk' x = some (k', .used) ↔ x = o ∧ k' = k ∨ blk x = some (k', .used) := by
  obtain ⟨k, hk6, -, hpow, hle, hmin⟩ := nextPower2_ok hsize
  have hmod : (size + sizeofBuddyList) % 4294967296 = size + sizeofBuddyList :=
    Nat.mod_eq_of_lt (by omega)
  rcases buddyAlloc_order h hc hk6 (by rw [hmod, hpow]) with
    ⟨hrun, hnone⟩ | ⟨o, t', blk', hrun, h', hc', hfresh, hused⟩
  · refine .inl ⟨hrun, fun x k' hx => ?_⟩
    have hord := h.tiles.order hx
    have hlt := hnone x k' hx
    have hstep : 2 ^ (k' + 1) ≤ 2 ^ k := Nat.pow_le_pow_right Nat.two_pos hlt
    rw [pow_succ] at hstep
    omega
  · exact .inr ⟨o, k, t', blk', hrun, h', hc', hle, hfresh, hused⟩

/-- An allocation of any size takes a free block, or stops at the end of the arena. -/
theorem buddyAlloc_block (size : Nat) (h : BuddyInv p t blk) (hc : Coalesced p blk) :
    t.buddyAlloc size = .error .increaseBuddySize ∨
    ∃ o k t' blk', t.buddyAlloc size = .ok (o + sizeofBuddyList, t') ∧ BuddyInv p t' blk' ∧
      Coalesced p blk' ∧
      ∀ x k', blk' x = some (k', .used) ↔ x = o ∧ k' = k ∨ blk x = some (k', .used) := by
  have hfind : ∃ k, 6 ≤ k ∧
      t.findBucket (nextPower2 ((size + sizeofBuddyList) % 4294967296)) = t.findBucket (2 ^ k) := by
    rcases nextPower2_cases (v := (size + sizeofBuddyList) % 4294967296)
      (Nat.mod_lt _ (by decide)) with hzero | ⟨k, hk6, hpow⟩
    · -- the least bucket is as good for 0 as for its own size
      refine ⟨6, le_rfl, ?_⟩
      rw [hzero]
      unfold Buddy.findBucket
      cases hbuckets : t.buckets with
      | nil => rfl
      | cons b bs =>
          have horder : b.order = 6 := (h.listed 0 b (by rw [hbuckets]; rfl)).order
          rw [List.findIdx?_cons, List.findIdx?_cons, horder]
          rfl
    · exact ⟨k, hk6, by rw [hpow]⟩
  obtain ⟨k, hk6, heq⟩ := hfind
  rcases buddyAlloc_order h hc hk6 heq with ⟨hrun, -⟩ | ⟨o, t', blk', hrun, h', hc', -, hused⟩
  · exact .inl hrun
  · exact .inr ⟨o, k, t', blk', hrun, h', hc', hused⟩

/-! ## Coalescing -/

theorem freeBlock_free (blk : Blocks Purpose) (o k x k' : Nat) :
    FreeBlock (Function.update blk o (some (k, .free))) x k' ↔
      x = o ∧ k' = k ∨ x ≠ o ∧ FreeBlock blk x k' := by
  unfold FreeBlock
  by_cases hx : x = o
  · subst hx
    rw [Function.update_self]
    simp [eq_comm]
  · rw [Function.update_of_ne hx]
    simp [hx]

theorem used_free (blk : Blocks Purpose) (o k x k' : Nat) :
    Function.update blk o (some (k, .free)) x = some (k', .used) ↔
      x ≠ o ∧ blk x = some (k', .used) := by
  by_cases hx : x = o
  · subst hx
    rw [Function.update_self]
    simp
  · rw [Function.update_of_ne hx]
    simp [hx]

/-- A block comes free, and only it can have a free buddy. -/
theorem Coalesced.free (h : Coalesced p blk) (o k : Nat) :
    CoalescedBut p (Function.update blk o (some (k, .free))) o := by
  intro x k' hk hx hb
  rw [freeBlock_free] at hx hb
  rcases hx with ⟨rfl, -⟩ | ⟨-, hx⟩
  · exact .inl rfl
  · rcases hb with ⟨heq, -⟩ | ⟨-, hb⟩
    · exact .inr heq
    · exact absurd hb (h x k' hk hx)

/-- The buddy of the one block that could have a free buddy is not free. -/
theorem CoalescedBut.of_buddy
    (h : CoalescedBut p (Function.update blk o (some (k, .free))) o)
    (hb : k < p → ¬ FreeBlock blk (o ^^^ 2 ^ k) k) :
    Coalesced p (Function.update blk o (some (k, .free))) := by
  have hself : ∀ x, FreeBlock (Function.update blk o (some (k, .free))) x k →
      o ^^^ 2 ^ k = x → k < p → False := by
    intro x hx heq hk
    have hpos := Nat.two_pow_pos k
    rcases (freeBlock_free blk o k x k).mp hx with ⟨rfl, -⟩ | ⟨-, hx⟩
    · have hzero : 2 ^ k = 0 := by
        have hxx : x ^^^ (x ^^^ 2 ^ k) = x ^^^ x := by rw [heq]
        rwa [← Nat.xor_assoc, Nat.xor_self, Nat.zero_xor] at hxx
      omega
    · exact hb hk (heq ▸ hx)
  have horder : ∀ k', FreeBlock (Function.update blk o (some (k, .free))) o k' → k' = k := by
    intro k' ho
    rcases (freeBlock_free blk o k o k').mp ho with ⟨-, hk'⟩ | ⟨hne, -⟩
    · exact hk'
    · exact absurd rfl hne
  intro x k' hk hx hbud
  rcases h x k' hk hx hbud with rfl | rfl
  · obtain rfl := horder k' hx
    exact hself _ hbud rfl hk
  · obtain rfl := horder k' hbud
    exact hself _ hx (xor_xor_two_pow x k') hk

/-- The test of a merge finds out whether the buddy is free. -/
theorem mergeTest_iff (h : BuddyInv p t blk) (ho : blk o = some (k, u)) :
    (t.mem (o ^^^ 2 ^ k)).use = .free ∧
        (t.mem (o ^^^ 2 ^ k)).size = 2 ^ k - sizeofBuddyList ↔
      k < p ∧ FreeBlock blk (o ^^^ 2 ^ k) k := by
  have hord := h.tiles.order ho
  by_cases hkp : k < p
  · obtain ⟨k', u', hb, hle⟩ := h.tiles.buddy ho hkp
    have hord' := h.tiles.order hb
    have hsize := header_size hord.1
    have hsize' := header_size hord'.1
    rw [h.headers hb]
    unfold FreeBlock
    rw [hb, Option.some.injEq, Prod.mk.injEq]
    dsimp only
    constructor
    · rintro ⟨rfl, heq⟩
      have hpow : 2 ^ k' = 2 ^ k := by omega
      exact ⟨hkp, Nat.pow_right_injective le_rfl hpow, rfl⟩
    · rintro ⟨-, rfl, rfl⟩
      exact ⟨rfl, rfl⟩
  · -- the place behind the arena is read, which is clear
    have hk : k = p := by omega
    subst hk
    have hin := h.tiles.inside ho
    have ho0 : o = 0 := by omega
    subst ho0
    rw [Nat.zero_xor, h.behind]
    have hge : 2 ^ 6 ≤ 2 ^ k := Nat.pow_le_pow_right Nat.two_pos hord.1
    constructor
    · rintro ⟨-, heq⟩
      unfold sizeofBuddyList at heq
      dsimp only at heq
      omega
    · rintro ⟨hlt, -⟩
      omega

theorem Buddy.listRemove_eq (t : Buddy) (ho : o ∈ b.ptr) :
    t.listRemove i o b =
      .ok (t.setBucket i { b with ptr := b.ptr.erase o, count := b.count - 1 }) := by
  unfold Buddy.listRemove
  rw [if_pos ho]

/-- The block that is merged leaves its list, in which it is from the second turn on. -/
theorem removeMerged_ok {mergeCount : Nat} (h : BuddyInv p t blk) (ho : blk o = some (k, u))
    (hu : mergeCount = 0 ∧ u = .used ∨ mergeCount ≠ 0 ∧ u = .free)
    (hb : t.buckets[k - 6]? = some b) :
    ∃ t₁ b₁, (if mergeCount ≠ 0 then t.listRemove (k - 6) o b else .ok t) = .ok t₁ ∧
      t₁.mem = t.mem ∧ t₁.buckets.length = t.buckets.length ∧ t₁.buckets[k - 6]? = some b₁ ∧
      b₁.count ≤ b.count ∧ (∀ j, j ≠ k - 6 → t₁.buckets[j]? = t.buckets[j]?) ∧
      Listed (fun x k' => FreeBlock blk x k' ∧ x ≠ o) t₁.buckets := by
  have hord := h.tiles.order ho
  have hok := h.listed _ _ hb
  have hkk : k - 6 + 6 = k := by omega
  rcases hu with ⟨rfl, rfl⟩ | ⟨hne, rfl⟩
  · refine ⟨t, b, if_neg (by simp), rfl, rfl, hb, le_rfl, fun j _ => rfl, fun j b' hj => ?_⟩
    have hok' := h.listed j b' hj
    refine ⟨hok'.order, hok'.nodup, fun x => ?_, hok'.count⟩
    rw [hok'.mem]
    refine (and_iff_left_of_imp fun hx => ?_).symm
    rintro rfl
    have hfree := (hx.order_eq ho).2
    cases hfree
  · have hmem : o ∈ b.ptr := (hok.mem o).mpr (by rw [hkk]; exact ho)
    refine ⟨t.setBucket (k - 6) { b with ptr := b.ptr.erase o, count := b.count - 1 },
      { b with ptr := b.ptr.erase o, count := b.count - 1 }, ?_, rfl, List.length_set ..,
      ?_, ?_, fun j hj => ?_, ?_⟩
    · rw [if_pos hne]
      exact t.listRemove_eq hmem
    · exact List.getElem?_set_self (List.getElem?_eq_some_iff.mp hb).1
    · dsimp only
      omega
    · exact List.getElem?_set_ne (Ne.symm hj)
    · refine h.listed.set (hok.erase hmem fun x => Iff.rfl) fun j hj x => ?_
      refine and_iff_left_of_imp fun hx => ?_
      rintro rfl
      have hk := (hx.order_eq ho).1
      omega

/-- One turn of `buddy_try_merge` that merges. -/
theorem mergeTurn_ok {mergeCount : Nat} (h : BuddyInv p t blk)
    (ho : blk o = some (k, u)) (hu : mergeCount = 0 ∧ u = .used ∨ mergeCount ≠ 0 ∧ u = .free)
    (hb : t.buckets[k - 6]? = some b) (hk : k < p) (hbud : FreeBlock blk (o ^^^ 2 ^ k) k) :
    ∃ t' b', Buddy.mergeTurn mergeCount o t = .ok (some (min o (o ^^^ 2 ^ k), t')) ∧
      BuddyInv p t' (merge blk o k .free) ∧ t'.buckets[k - 6]? = some b' ∧ b'.count < b.count ∧
      ∀ j, j < k - 6 → t'.buckets[j]? = t.buckets[j]? := by
  have hord := h.tiles.order ho
  have hkk : k - 6 + 6 = k := by omega
  have hpos := Nat.two_pow_pos k
  have hne : o ^^^ 2 ^ k ≠ o := by
    rcases xor_two_pow (h.tiles.aligned ho) with ⟨heq, -⟩ | ⟨heq, -⟩ <;> omega
  obtain ⟨t₁, b₁, hrun₁, hmem₁, hlen₁, hb₁, hcount₁, hother₁, hlisted₁⟩ :=
    removeMerged_ok h ho hu hb
  have hok₁ := hlisted₁ _ _ hb₁
  have hin₁ : o ^^^ 2 ^ k ∈ b₁.ptr := (hok₁.mem _).mpr ⟨by rw [hkk]; exact hbud, hne⟩
  have hcount : b₁.count ≠ 0 := by
    have hlen := List.length_pos_of_mem hin₁
    rw [hok₁.count]
    omega
  have hlen := h.length
  obtain ⟨up, hup⟩ : ∃ up, t₁.buckets[k - 6 + 1]? = some up :=
    ⟨_, List.getElem?_eq_getElem (by omega)⟩
  have hokup := hlisted₁ _ _ hup
  -- the two blocks leave, then the one they make comes into the upper bucket
  have hlisted₂ := hlisted₁.set (G := fun x k' => (FreeBlock blk x k' ∧ x ≠ o) ∧ x ≠ o ^^^ 2 ^ k)
    (hok₁.erase hin₁ fun x => Iff.rfl) fun j hj x => by
      refine and_iff_left_of_imp fun hx => ?_
      rintro rfl
      have hk' := (hx.1.order_eq hbud).1
      omega
  have hfree : ∀ x k', FreeBlock (merge blk o k .free) x k' ↔
      x = min o (o ^^^ 2 ^ k) ∧ k' = k + 1 ∨ (FreeBlock blk x k' ∧ x ≠ o) ∧ x ≠ o ^^^ 2 ^ k := by
    intro x k'
    constructor
    · intro hx
      rcases merge_cases hx with ⟨hx, hk', -⟩ | ⟨h₁, h₂, hx⟩
      · exact .inl ⟨hx, hk'⟩
      · exact .inr ⟨⟨hx, h₁⟩, h₂⟩
    · rintro (⟨rfl, rfl⟩ | ⟨⟨hx, h₁⟩, h₂⟩)
      · exact merge_min _ _ _ _
      · unfold FreeBlock
        rw [merge_of_ne h₁ h₂]
        exact hx
  have hmin : min o (o ^^^ 2 ^ k) = o ∨ min o (o ^^^ 2 ^ k) = o ^^^ 2 ^ k := min_choice _ _
  have hlisted₃ := hlisted₂.set (G := FreeBlock (merge blk o k .free)) (i := k - 6 + 1)
    (b := { up with ptr := min o (o ^^^ 2 ^ k) :: up.ptr, count := up.count + 1 })
    (by
      have hup' : BucketOk (fun x k' => (FreeBlock blk x k' ∧ x ≠ o) ∧ x ≠ o ^^^ 2 ^ k) (k - 6 + 1)
          up := by
        refine ⟨hokup.order, hokup.nodup, fun x => (hokup.mem x).trans ?_, hokup.count⟩
        refine (and_iff_left_of_imp fun hx => ?_).symm
        rintro rfl
        have hk' := (hx.1.order_eq hbud).1
        omega
      refine hup'.push ?_ fun x => ?_
      · rintro ⟨⟨-, h₁⟩, h₂⟩
        rcases hmin with heq | heq
        · exact h₁ heq
        · exact h₂ heq
      · rw [hfree, show k - 6 + 1 + 6 = k + 1 by omega]
        simp)
    fun j hj x => by
      rw [hfree]
      constructor
      · rintro (⟨-, hk'⟩ | hx)
        · omega
        · exact hx
      · exact .inr
  have hsize := header_size hord.1
  have hpow : 2 * 2 ^ k = 2 ^ (k + 1) := by rw [pow_succ]; omega
  have htest := (mergeTest_iff h ho).mpr ⟨hk, hbud⟩
  have hinv : BuddyInv p (((t₁.setBucket (k - 6)
      { b₁ with ptr := b₁.ptr.erase (o ^^^ 2 ^ k), count := b₁.count - 1 }).setHeader
        (min o (o ^^^ 2 ^ k)) ⟨2 ^ (k + 1) - sizeofBuddyList, .free⟩).insertHead (k - 6 + 1)
        (min o (o ^^^ 2 ^ k)) up) (merge blk o k .free) := by
    refine h.change (h.tiles.merge ho hbud hk .free) (merge_min _ _ _ _)
      (fun x k' u' hx hblk => ?_) ?_ ?_ hlisted₃
    · rcases merge_cases hblk with ⟨heq, -⟩ | ⟨-, -, hblk⟩
      · exact absurd heq hx
      · exact hblk
    · rw [← hmem₁]
      rfl
    · rw [← hlen₁]
      exact (List.length_set ..).trans (List.length_set ..)
  refine ⟨_, { b₁ with ptr := b₁.ptr.erase (o ^^^ 2 ^ k), count := b₁.count - 1 }, ?_,
    hinv.clear (merge_min blk o k .free), ?_, ?_, fun j hj => ?_⟩
  · unfold Buddy.mergeTurn
    simp only [h.headers ho]
    rw [hsize, h.find ho]
    dsimp only
    rw [if_pos htest, hb]
    dsimp only
    rw [hrun₁]
    dsimp only
    rw [hb₁, hup]
    dsimp only
    rw [if_neg hcount, t₁.listRemove_eq hin₁, hpow]
  · unfold Buddy.clear Buddy.insertHead Buddy.setHeader Buddy.setBucket
    dsimp only
    rw [List.getElem?_set_ne (by omega)]
    exact List.getElem?_set_self (by omega)
  · dsimp only
    omega
  · unfold Buddy.clear Buddy.insertHead Buddy.setHeader Buddy.setBucket
    dsimp only
    rw [List.getElem?_set_ne (by omega), List.getElem?_set_ne (by omega)]
    exact hother₁ j (by omega)

/-- One turn of `buddy_try_merge` that does not. -/
theorem mergeTurn_stop (mergeCount : Nat) (h : BuddyInv p t blk) (ho : blk o = some (k, u))
    (hbud : ¬ (k < p ∧ FreeBlock blk (o ^^^ 2 ^ k) k)) :
    Buddy.mergeTurn mergeCount o t = .ok none := by
  unfold Buddy.mergeTurn
  simp only [h.headers ho]
  rw [header_size (h.tiles.order ho).1, h.find ho]
  dsimp only
  rw [if_neg (mt (mergeTest_iff h ho).mp hbud)]

/-- The used blocks after a merge with a free buddy. -/
theorem used_merge (hbud : FreeBlock blk (o ^^^ 2 ^ k) k) (x k' : Nat) :
    merge blk o k .free x = some (k', .used) ↔ x ≠ o ∧ blk x = some (k', .used) := by
  constructor
  · intro hx
    rcases merge_cases hx with ⟨-, -, heq⟩ | ⟨hne, -, hx⟩
    · cases heq
    · exact ⟨hne, hx⟩
  · rintro ⟨hne, hx⟩
    rw [merge_of_ne hne, hx]
    rintro rfl
    unfold FreeBlock at hbud
    rw [hx] at hbud
    cases hbud

/-- The block that a merge makes is the only one that may have a free buddy. -/
theorem CoalescedBut.merge
    (h : CoalescedBut p (Function.update blk o (some (k, .free))) o) :
    CoalescedBut p (Function.update (merge blk o k .free) (min o (o ^^^ 2 ^ k))
      (some (k + 1, .free))) (min o (o ^^^ 2 ^ k)) := by
  rw [← merge_min blk o k .free, Function.update_eq_self]
  intro x k' hk hx hbud
  have hback : ∀ y, y ≠ min o (o ^^^ 2 ^ k) → FreeBlock (BuddyTiling.merge blk o k .free) y k' →
      y ≠ o ∧ FreeBlock (Function.update blk o (some (k, .free))) y k' := by
    intro y hy hfree
    rcases merge_cases hfree with ⟨heq, -⟩ | ⟨h₁, -, hfree⟩
    · exact absurd heq hy
    · exact ⟨h₁, (freeBlock_free blk o k y k').mpr (.inr ⟨h₁, hfree⟩)⟩
  by_contra hboth
  rw [not_or] at hboth
  obtain ⟨h₁, hx'⟩ := hback x hboth.1 hx
  obtain ⟨h₂, hbud'⟩ := hback _ hboth.2 hbud
  rcases h x k' hk hx' hbud' with heq | heq
  · exact h₁ heq
  · exact h₂ heq

/-- `buddy_try_merge` either leaves all as it is or ends with the block merged. -/
theorem buddyTryMerge_ok : ∀ (n : Nat) {mergeCount : Nat} {o k : Nat} {u : Purpose} {t : Buddy}
    {blk : Blocks Purpose}, p < n + k → BuddyInv p t blk → blk o = some (k, u) →
    (mergeCount = 0 ∧ u = .used ∨ mergeCount ≠ 0 ∧ u = .free) →
    CoalescedBut p (Function.update blk o (some (k, .free))) o →
    (Buddy.buddyTryMerge n mergeCount o t = .ok (mergeCount, t) ∧
      Coalesced p (Function.update blk o (some (k, .free)))) ∨
    ∃ mergeCount' t' blk', Buddy.buddyTryMerge n mergeCount o t = .ok (mergeCount', t') ∧
      mergeCount' ≠ 0 ∧ BuddyInv p t' blk' ∧ Coalesced p blk' ∧
      (∀ x k', blk' x = some (k', .used) ↔ x ≠ o ∧ blk x = some (k', .used)) ∧
      (∀ b, t.buckets[k - 6]? = some b → ∃ b', t'.buckets[k - 6]? = some b' ∧ b'.count < b.count) ∧
      ∀ j, j < k - 6 → t'.buckets[j]? = t.buckets[j]? := by
  intro n
  induction n with
  | zero =>
      intro mergeCount o k u t blk hn h ho
      have hord := h.tiles.order ho
      omega
  | succ n ih =>
      intro mergeCount o k u t blk hn h ho hu hc
      have hord := h.tiles.order ho
      by_cases htest : k < p ∧ FreeBlock blk (o ^^^ 2 ^ k) k
      · right
        obtain ⟨b, hb, -, -⟩ := h.bucket ho
        obtain ⟨t₁, b₁, hturn, h₁, hb₁, hcount₁, hlower₁⟩ :=
          mergeTurn_ok h ho hu hb htest.1 htest.2
        have hrun : Buddy.buddyTryMerge (n + 1) mergeCount o t =
            Buddy.buddyTryMerge n (mergeCount + 1) (min o (o ^^^ 2 ^ k)) t₁ := by
          rw [Buddy.buddyTryMerge_succ, hturn]
        have hused₁ := used_merge htest.2
        have hmerged := merge_min blk o k .free
        rcases ih (by omega) h₁ hmerged (.inr ⟨Nat.succ_ne_zero _, rfl⟩) hc.merge with
          ⟨hstop, hstopc⟩ | ⟨m', t', blk', hgo, hm', h', hc', hused', -, hlower'⟩
        · rw [← hmerged, Function.update_eq_self] at hstopc
          refine ⟨_, t₁, _, hrun.trans hstop, Nat.succ_ne_zero _, h₁, hstopc, hused₁,
            fun b' hb' => ?_, hlower₁⟩
          obtain rfl := Option.some.inj (hb.symm.trans hb')
          exact ⟨b₁, hb₁, hcount₁⟩
        · refine ⟨m', t', blk', hrun.trans hgo, hm', h', hc', fun x k' => ?_, fun b' hb' => ?_,
            fun j hj => ?_⟩
          · rw [hused', hused₁]
            refine and_iff_right_of_imp fun hx => ?_
            rintro rfl
            have hfree := (hused₁ _ k').mpr hx
            rw [hmerged] at hfree
            cases hfree
          · obtain rfl := Option.some.inj (hb.symm.trans hb')
            exact ⟨b₁, (hlower' _ (by omega)).trans hb₁, hcount₁⟩
          · exact (hlower' j (by omega)).trans (hlower₁ j hj)
      · left
        refine ⟨?_, hc.of_buddy fun hk hfree => htest ⟨hk, hfree⟩⟩
        rw [Buddy.buddyTryMerge_succ, mergeTurn_stop mergeCount h ho htest]

/-! ## Freeing -/

/-- A block comes into the list of its bucket. -/
theorem addFree_ok (h : BuddyInv p t blk) (ho : blk o = some (k, .used))
    (hb : t.buckets[k - 6]? = some b) :
    BuddyInv p (t.addFree (k - 6) o (2 ^ k) b) (Function.update blk o (some (k, .free))) := by
  have hord := h.tiles.order ho
  have hok := h.listed _ _ hb
  have hkk : k - 6 + 6 = k := by omega
  have hnot : ∀ k', ¬ FreeBlock blk o k' := fun k' hx => by
    have hu := (hx.order_eq ho).2
    cases hu
  refine BuddyInv.clear ?_ (Function.update_self o _ blk)
  refine h.change (h.tiles.relabel ho .free) (Function.update_self _ _ _)
    (fun x k' u' hxo hx => ?_) rfl (List.length_set ..) ?_
  · rw [Function.update_of_ne hxo] at hx
    exact hx
  · refine h.listed.set (hok.push (hnot _) fun x => ?_) fun j hj x => ?_
    · rw [freeBlock_free, hkk]
      constructor
      · rintro (⟨heq, -⟩ | ⟨-, hx⟩)
        · exact .inl heq
        · exact .inr hx
      · rintro (heq | hx)
        · exact .inl ⟨heq, rfl⟩
        · exact .inr ⟨fun heq => hnot k (heq ▸ hx), hx⟩
    · rw [freeBlock_free]
      constructor
      · rintro (⟨-, hk'⟩ | ⟨-, hx⟩)
        · omega
        · exact hx
      · intro hx
        exact .inr ⟨fun heq => hnot _ (heq ▸ hx), hx⟩

/-- The area of a used block is freed. -/
theorem buddyFree_ok (h : BuddyInv p t blk) (hc : Coalesced p blk)
    (ho : blk o = some (k, .used)) :
    ∃ t' blk', t.buddyFree (o + sizeofBuddyList) = .ok t' ∧ BuddyInv p t' blk' ∧
      Coalesced p blk' ∧ ∀ x k', blk' x = some (k', .used) ↔ x ≠ o ∧ blk x = some (k', .used) := by
  have hord := h.tiles.order ho
  have hlen := h.length
  obtain ⟨b, hb, hok, hkk⟩ := h.bucket ho
  unfold Buddy.buddyFree
  simp only [Nat.add_sub_cancel, h.headers ho]
  rw [header_size hord.1, h.find ho]
  dsimp only
  rw [hb]
  simp only [ne_eq, not_true_eq_false, if_false]
  by_cases hcount : b.count = 0
  · rw [if_pos hcount]
    refine ⟨_, _, rfl, addFree_ok h ho hb, (hc.free o k).of_buddy fun _ hfree => ?_,
      used_free blk o k⟩
    -- the buddy would be in the list, which is empty
    have hmem := (hok.mem (o ^^^ 2 ^ k)).mpr (by rw [hkk]; exact hfree)
    have hpos := List.length_pos_of_mem hmem
    rw [hok.count] at hcount
    omega
  · rw [if_neg hcount]
    rcases buddyTryMerge_ok (t.buckets.length + 1) (by omega) h ho (.inl ⟨rfl, rfl⟩)
      (hc.free o k) with
      ⟨hrun, hc'⟩ | ⟨m, t', blk', hrun, hm, h', hc', hused, hless, -⟩
    · rw [hrun]
      dsimp only
      rw [hb]
      simp only [not_true_eq_false, if_false]
      exact ⟨_, _, rfl, addFree_ok h ho hb, hc', used_free blk o k⟩
    · obtain ⟨b', hb', hlt⟩ := hless b hb
      rw [hrun]
      dsimp only
      rw [hb']
      simp only [hm, not_false_eq_true, if_true, if_pos hlt]
      exact ⟨t', blk', rfl, h', hc', hused⟩

end Ross

import Ross.Core.HashTable
import Ross.Lib.QuadraticProbe
import Ross.Lib.Transition
import Mathlib.NumberTheory.Bertrand

/-!
# The hash tables as a map

A table has an odd prime number of slots, or one, and is at most half full, so the
probe loops stop in its first half; an event is found where it was put because the
slots in front of it still are different ones, whatever was removed meanwhile.
-/

namespace Ross

open CInt QuadraticProbe Transition

variable {T : Type}

/-! ## Primes -/

theorem odd_of_isPrime {p : Nat} (h : isPrime p = true) : p % 2 = 1 := by
  unfold isPrime at h
  split at h
  · cases h
  · omega

/-- Every number that passes the test is 1 or prime. -/
theorem prime_of_isPrime {p : Nat} (h : isPrime p = true) : p = 1 ∨ p.Prime := by
  have hodd := odd_of_isPrime h
  by_cases h1 : p = 1
  · exact .inl h1
  · right
    by_contra hnp
    unfold isPrime at h
    rw [if_neg (by omega), List.all_eq_true] at h
    have hq : p.minFac.Prime := Nat.minFac_prime h1
    have hsq : p.minFac ^ 2 ≤ p := Nat.minFac_sq_le_self (by omega) hnp
    have hle : p.minFac ≤ Nat.sqrt p := Nat.le_sqrt'.mpr hsq
    have hqodd : p.minFac % 2 = 1 := by
      by_contra heven
      have h2 : 2 ∣ p := (Nat.dvd_of_mod_eq_zero (by omega)).trans (Nat.minFac_dvd p)
      omega
    have h2 := hq.two_le
    have hmem : p.minFac ∈ List.range' 3 (Nat.sqrt p / 2) 2 := by
      rw [List.mem_range']
      exact ⟨(p.minFac - 3) / 2, by omega, by omega⟩
    have hne := of_decide_eq_true (h _ hmem)
    exact hne (Nat.mod_eq_zero_of_dvd (Nat.minFac_dvd p))

/-- Every odd prime passes the test. -/
theorem isPrime_of_prime {p : Nat} (hp : p.Prime) (hodd : p % 2 = 1) : isPrime p = true := by
  unfold isPrime
  rw [if_neg (by omega), List.all_eq_true]
  intro a ha
  obtain ⟨i, hi, rfl⟩ := List.mem_range'.mp ha
  refine decide_eq_true fun h0 => ?_
  have hdvd : 3 + 2 * i ∣ p := Nat.dvd_of_mod_eq_zero h0
  rcases (Nat.dvd_prime hp).mp hdvd with h1 | h1
  · omega
  · have hle : Nat.sqrt p * Nat.sqrt p ≤ p := Nat.sqrt_le p
    have h3 : 3 + 2 * i ≤ Nat.sqrt p + 1 := by omega
    have h4 : p ≤ Nat.sqrt p + 1 := by omega
    have h5 : 2 ≤ Nat.sqrt p := by omega
    nlinarith

theorem nextPrimeLoop_ok {q : Nat} (hq : isPrime q = true) (fuel : Nat) {p : Nat} (hle : p ≤ q)
    (hpar : p % 2 = q % 2) (hfuel : q < p + 2 * fuel) :
    ∃ r, nextPrimeLoop fuel p = .ok r ∧ isPrime r = true ∧ p ≤ r := by
  induction fuel generalizing p with
  | zero => omega
  | succ fuel ih =>
      unfold nextPrimeLoop
      split
      next hp => exact ⟨p, rfl, hp, le_rfl⟩
      next hp =>
        have hne : p ≠ q := by
          rintro rfl
          exact hp hq
        obtain ⟨r, hr, hrp, hpr⟩ := ih (p := p + 2) (by omega) (by omega) (by omega)
        exact ⟨r, hr, hrp, by omega⟩

/-- The loop of `next_prime` ends. -/
theorem nextPrime_ok (p : Nat) :
    ∃ r, nextPrime p = .ok r ∧ isPrime r = true ∧ 2 * p + 1 ≤ r := by
  have hex : ∃ q, isPrime q = true ∧ 2 * p + 1 ≤ q ∧ q ≤ 2 * (2 * p + 1) := by
    by_cases hp : p = 0
    · subst hp
      exact ⟨1, by decide, le_rfl, by decide⟩
    · obtain ⟨q, hq, hlt, hle⟩ := Nat.exists_prime_lt_and_le_two_mul (2 * p + 1) (by omega)
      have hodd : q % 2 = 1 := by
        rcases hq.eq_two_or_odd with h2 | h2 <;> omega
      exact ⟨q, isPrime_of_prime hq hodd, hlt.le, hle⟩
  obtain ⟨q, hq, hle, hle'⟩ := hex
  have hqodd := odd_of_isPrime hq
  obtain ⟨r, hr, hrp, hpr⟩ := nextPrimeLoop_ok hq (2 * p + 1) (p := p * 2 + 1) (by omega)
    (by omega) (by omega)
  exact ⟨r, hr, hrp, by omega⟩

/-! ## Probing -/

variable {hashT : List (Option (TwEvent T))} {size : Nat} {e x : TwEvent T}

/-- The step of the loops is the step of the probe sequence. -/
theorem nextKey_probe {h i : Nat} (hi : 2 * i + 1 ≤ size) (hsize : size < 2 ^ 30) :
    nextKey size i (probe size h i : Nat) = (probe size h (i + 1) : Nat) := by
  have hlt : probe size h i < size := probe_lt (by omega)
  have hint : int32 ((probe size h i : Nat) + (2 * ((i : Int) + 1) - 1)) =
      ((probe size h i + (2 * i + 1) : Nat) : Int) := by
    rw [int32_of_lt (by omega) (by omega)]
    omega
  unfold nextKey
  dsimp only
  rw [hint, probe_succ hi]
  split_ifs <;> omega

/-- The slots the loops look at for `e`. -/
def place (size : Nat) (e : TwEvent T) (i : Nat) : Nat := probe size (e.eventId % size) i

theorem place_lt {i : Nat} (hpos : 0 < size) : place size e i < size := probe_lt hpos

theorem hash_place (hpos : 0 < size) (hsize : size < 2 ^ 30) :
    hash_ e.eventId size = (place size e 0 : Nat) := by
  have hlt : e.eventId % size < size := Nat.mod_lt _ hpos
  unfold hash_ place
  rw [probe_zero hlt, int32_of_lt (by omega) (by omega)]

theorem slot_of_some {k : Nat} {entry : Option (TwEvent T)} (h : hashT[k]? = some entry) :
    slot hashT (k : Nat) = .ok entry := by
  unfold slot
  rw [if_pos (by omega), Int.toNat_natCast, h]

theorem findEmptyLoop_ok (hlen : hashT.length = size) (hpos : 0 < size) (hsize : size < 2 ^ 30)
    (fuel : Nat) {i j : Nat} (hfuel : i + fuel = maxProbes size) (hij : i ≤ j)
    (hj : j < maxProbes size) (hfree : hashT[place size e j]? = some none) :
    ∃ k < maxProbes size, findEmptyLoop hashT size fuel i (place size e i : Nat) =
      .ok (place size e k) ∧ hashT[place size e k]? = some none := by
  induction fuel generalizing i with
  | zero => omega
  | succ fuel ih =>
      have hlt : place size e i < hashT.length := by rw [hlen]; exact place_lt hpos
      have hget : hashT[place size e i]? = some hashT[place size e i] :=
        List.getElem?_eq_getElem hlt
      unfold findEmptyLoop
      rw [slot_of_some hget]
      cases hentry : hashT[place size e i] with
      | none =>
          refine ⟨i, by omega, ?_, by rw [hget, hentry]⟩
          simp only [Int.toNat_natCast]
      | some y =>
          have hne : i ≠ j := by
            rintro rfl
            rw [hget, hentry] at hfree
            cases hfree
          unfold maxProbes at hfuel hj
          dsimp only
          unfold place
          rw [nextKey_probe (by omega) hsize]
          exact ih (i := i + 1) (by unfold maxProbes; omega) (by omega)

/-- The number of occupied slots. -/
def occupied (hashT : List (Option (TwEvent T))) : Nat := hashT.countP (·.isSome)

/-- The occupied slots, of which there are as many as events. -/
theorem exists_occupied (hashT : List (Option (TwEvent T))) :
    ∃ s : Finset Nat, s.card ≤ occupied hashT ∧
      ∀ k, ∀ y, hashT[k]? = some (some y) → k ∈ s := by
  let test : Nat → Bool := fun k => (hashT[k]?.join).isSome
  have hmap : (List.range hashT.length).map (fun k => hashT[k]?.join) = hashT := by
    refine List.ext_getElem (by simp) fun k h₁ h₂ => ?_
    simp [h₂]
  refine ⟨((List.range hashT.length).filter test).toFinset, ?_, fun k y hk => ?_⟩
  · calc ((List.range hashT.length).filter test).toFinset.card
        ≤ ((List.range hashT.length).filter test).length := List.toFinset_card_le _
      _ = (List.range hashT.length).countP test := List.countP_eq_length_filter.symm
      _ = ((List.range hashT.length).map (fun k => hashT[k]?.join)).countP (·.isSome) := by
          rw [List.countP_map]
          rfl
      _ = occupied hashT := by rw [hmap, occupied]
  · have hlt : k < hashT.length := (List.getElem?_eq_some_iff.mp hk).1
    rw [List.mem_toFinset, List.mem_filter, List.mem_range]
    exact ⟨hlt, by simp only [test, hk, Option.join_some, Option.isSome_some]⟩

/-- `find_empty` finds an empty slot of a table at most half full. -/
theorem findEmpty_ok (hp : isPrime size = true) (hsize : size < 2 ^ 30)
    (hlen : hashT.length = size) (hhalf : occupied hashT ≤ size / 2) (e : TwEvent T) :
    ∃ k < maxProbes size, findEmpty hashT e size = .ok (place size e k) ∧
      hashT[place size e k]? = some none := by
  have hodd := odd_of_isPrime hp
  have hpos : 0 < size := by omega
  obtain ⟨s, hcard, hocc⟩ := exists_occupied hashT
  obtain ⟨j, hj, hns⟩ := exists_probe_notMem (h := e.eventId % size) (prime_of_isPrime hp)
    (s := s) (by omega)
  have hlt : place size e j < hashT.length := by rw [hlen]; exact place_lt hpos
  have hfree : hashT[place size e j]? = some none := by
    have hget := List.getElem?_eq_getElem hlt
    cases hentry : hashT[place size e j] with
    | none => rw [hget, hentry]
    | some y => exact absurd (hocc (place size e j) y (by rw [hget, hentry])) hns
  unfold findEmpty
  dsimp only
  rw [hash_place hpos hsize, if_neg (by omega)]
  exact findEmptyLoop_ok hlen hpos hsize _ (Nat.zero_add _) (Nat.zero_le j) hj hfree

theorem findEntryLoop_ok (hlen : hashT.length = size) (hpos : 0 < size) (hsize : size < 2 ^ 30)
    {k : Nat} (hk : ∀ i y, hashT[i]? = some (some y) → y.eventId = e.eventId → i = k)
    (fuel : Nat) {i j : Nat} (hfuel : i + fuel = maxProbes size) (hij : i ≤ j)
    (hj : j < maxProbes size) (hfound : hashT[place size e j]? = some (some x))
    (hx : x.eventId = e.eventId) :
    findEntryLoop hashT e size fuel i (place size e i : Nat) = .ok k := by
  induction fuel generalizing i with
  | zero => omega
  | succ fuel ih =>
      have hlt : place size e i < hashT.length := by rw [hlen]; exact place_lt hpos
      have hget : hashT[place size e i]? = some hashT[place size e i] :=
        List.getElem?_eq_getElem hlt
      unfold findEntryLoop
      rw [slot_of_some hget]
      dsimp only
      split
      next hid =>
        obtain ⟨y, hy, hyid⟩ := Option.map_eq_some_iff.mp hid
        rw [Int.toNat_natCast, hk (place size e i) y (by rw [hget, hy]) hyid]
      next hid =>
        have hne : i ≠ j := by
          rintro rfl
          rw [hget, Option.some.injEq] at hfound
          exact hid (by rw [hfound, Option.map_some, hx])
        have hnext : nextKey size i (place size e i : Nat) = (place size e (i + 1) : Nat) :=
          nextKey_probe (by unfold maxProbes at hfuel hj; omega) hsize
        have hlt' : place size e (i + 1) < size := probe_lt hpos
        rw [hnext, if_neg (by omega)]
        exact ih (by omega) (by omega)

/-- `find_entry` finds the slot of an event that lies on the places of its id. -/
theorem findEntry_ok (hlen : hashT.length = size) (hpos : 0 < size) (hsize : size < 2 ^ 30)
    {k : Nat} (hk : ∀ i y, hashT[i]? = some (some y) → y.eventId = e.eventId → i = k)
    {j : Nat} (hj : j < maxProbes size) (hfound : hashT[place size e j]? = some (some x))
    (hx : x.eventId = e.eventId) : findEntry hashT e size = .ok k := by
  unfold findEntry
  rw [hash_place hpos hsize]
  exact findEntryLoop_ok hlen hpos hsize hk _ (Nat.zero_add _) (Nat.zero_le j) hj hfound hx

/-! ## One table -/

namespace HashTable

variable {h h' : HashTable T}

/-- The event is in the table. -/
def Stored (h : HashTable T) (e : TwEvent T) : Prop := ∃ k : Nat, h.incoming[k]? = some (some e)

/-- What holds of a table between two calls, but for the bound on the events. -/
structure Hashed (h : HashTable T) : Prop where
  prime : isPrime h.hashSize = true
  small : h.hashSize < 2 ^ 30
  length : h.incoming.length = h.hashSize
  placed : ∀ (k : Nat) (e : TwEvent T), h.incoming[k]? = some (some e) → ∃ i < maxProbes h.hashSize,
    k = place h.hashSize e i
  distinct : ∀ (k l : Nat) (e f : TwEvent T),
    h.incoming[k]? = some (some e) → h.incoming[l]? = some (some f) →
    e.eventId = f.eventId → k = l
  stored : h.numStored = occupied h.incoming

theorem Hashed.pos (hh : Hashed h) : 0 < h.hashSize := by
  have hodd := odd_of_isPrime hh.prime
  omega

theorem Hashed.eq_of_eventId (hh : Hashed h) {x y : TwEvent T} (hx : h.Stored x) (hy : h.Stored y)
    (hid : x.eventId = y.eventId) : x = y := by
  obtain ⟨k, hk⟩ := hx
  obtain ⟨l, hl⟩ := hy
  obtain rfl := hh.distinct k l x y hk hl hid
  rw [hk, Option.some.injEq, Option.some.injEq] at hl
  exact hl

/-- The slots after one of them is written. -/
theorem set_slot {hashT : List (Option (TwEvent T))} {p k : Nat} (hp : p < hashT.length)
    {entry : Option (TwEvent T)} {x : TwEvent T} :
    (hashT.set p entry)[k]? = some (some x) ↔
      k = p ∧ entry = some x ∨ k ≠ p ∧ hashT[k]? = some (some x) := by
  rw [List.getElem?_set]
  split
  next heq =>
    subst heq
    simp
  next hne => simp [Ne.symm hne]

theorem insert_of_findEmpty {hashT : List (Option (TwEvent T))} {size k : Nat}
    (hfind : findEmpty hashT e size = .ok k) :
    HashTable.insert hashT e size = .ok (hashT.set k (some e)) := by
  unfold HashTable.insert
  rw [hfind]

/-- The table after an event of a new id is put into an empty one of its slots. -/
theorem Hashed.put (hh : Hashed h) (h' : HashTable T) {i : Nat} (hi : i < maxProbes h.hashSize)
    (hfree : h.incoming[place h.hashSize e i]? = some none)
    (hnew : ∀ x, h.Stored x → x.eventId ≠ e.eventId) (hsize : h'.hashSize = h.hashSize)
    (hincoming : h'.incoming = h.incoming.set (place h.hashSize e i) (some e))
    (hnum : h'.numStored = h.numStored + 1) :
    Hashed h' ∧ ∀ x, h'.Stored x ↔ x = e ∨ h.Stored x := by
  have hlt : place h.hashSize e i < h.incoming.length := (List.getElem?_eq_some_iff.mp hfree).1
  have hget : ∀ (k : Nat) (x : TwEvent T), h'.incoming[k]? = some (some x) ↔
      k = place h.hashSize e i ∧ e = x ∨
        k ≠ place h.hashSize e i ∧ h.incoming[k]? = some (some x) := by
    intro k x
    rw [hincoming, set_slot hlt, Option.some.injEq]
  have hprime : isPrime h'.hashSize = true := by
    rw [hsize]
    exact hh.prime
  have hsmall : h'.hashSize < 2 ^ 30 := by
    rw [hsize]
    exact hh.small
  have hlength : h'.incoming.length = h'.hashSize := by
    rw [hincoming, List.length_set, hsize]
    exact hh.length
  have hplaced : ∀ (k : Nat) (x : TwEvent T), h'.incoming[k]? = some (some x) →
      ∃ i < maxProbes h'.hashSize, k = place h'.hashSize x i := by
    intro k x hk
    rw [hsize]
    rcases (hget k x).mp hk with ⟨rfl, rfl⟩ | ⟨-, hk⟩
    · exact ⟨i, hi, rfl⟩
    · exact hh.placed k x hk
  have hdistinct : ∀ (k l : Nat) (x y : TwEvent T), h'.incoming[k]? = some (some x) →
      h'.incoming[l]? = some (some y) → x.eventId = y.eventId → k = l := by
    intro k l x y hk hl hxy
    rcases (hget k x).mp hk with ⟨hk', hx⟩ | ⟨-, hk'⟩
    · rcases (hget l y).mp hl with ⟨hl', -⟩ | ⟨-, hl'⟩
      · exact hk'.trans hl'.symm
      · exact absurd (hx ▸ hxy.symm) (hnew y ⟨l, hl'⟩)
    · rcases (hget l y).mp hl with ⟨-, hy⟩ | ⟨-, hl'⟩
      · exact absurd (hy ▸ hxy) (hnew x ⟨k, hk'⟩)
      · exact hh.distinct k l x y hk' hl' hxy
  have hstored : h'.numStored = occupied h'.incoming := by
    have hnone : h.incoming[place h.hashSize e i] = none := by
      rw [List.getElem?_eq_getElem hlt, Option.some.injEq] at hfree
      exact hfree
    have hcount : occupied h'.incoming = occupied h.incoming + 1 := by
      unfold occupied
      rw [hincoming, List.countP_set hlt, hnone]
      simp only [Option.isSome_none, Option.isSome_some, Bool.false_eq_true, if_false, if_true,
        Nat.sub_zero]
    rw [hnum, hcount, hh.stored, Nat.cast_add, Nat.cast_one]
  refine ⟨⟨hprime, hsmall, hlength, hplaced, hdistinct, hstored⟩, fun x => ⟨?_, ?_⟩⟩
  · rintro ⟨k, hk⟩
    rcases (hget k x).mp hk with ⟨-, hx⟩ | ⟨-, hk⟩
    · exact .inl hx.symm
    · exact .inr ⟨k, hk⟩
  · rintro (rfl | ⟨k, hk⟩)
    · exact ⟨_, (hget _ x).mpr (.inl ⟨rfl, rfl⟩)⟩
    · refine ⟨k, (hget k x).mpr (.inr ⟨?_, hk⟩)⟩
      rintro rfl
      rw [hfree] at hk
      cases hk

/-- An event of a new id is put into an empty slot. -/
theorem Hashed.insert (hh : Hashed h) (hhalf : occupied h.incoming ≤ h.hashSize / 2)
    (hnew : ∀ x, h.Stored x → x.eventId ≠ e.eventId) :
    ∃ incoming, HashTable.insert h.incoming e h.hashSize = .ok incoming ∧
      Hashed { h with incoming, numStored := h.numStored + 1 } ∧
      ∀ x, Stored { h with incoming, numStored := h.numStored + 1 } x ↔ x = e ∨ h.Stored x := by
  obtain ⟨i, hi, hfind, hfree⟩ := findEmpty_ok hh.prime hh.small hh.length hhalf e
  obtain ⟨hhashed, hstored⟩ := hh.put ⟨h.incoming.set (place h.hashSize e i) (some e),
    h.numStored + 1, h.hashSize⟩ hi hfree hnew rfl rfl rfl
  have hinsert : HashTable.insert h.incoming e h.hashSize =
      .ok (h.incoming.set (place h.hashSize e i) (some e)) := insert_of_findEmpty hfind
  exact ⟨_, hinsert, hhashed, hstored⟩

/-- The table after the event of one of its slots is taken out. -/
theorem Hashed.clear (hh : Hashed h) (h' : HashTable T) {p : Nat}
    (hp : h.incoming[p]? = some (some x))
    (hsize : h'.hashSize = h.hashSize) (hincoming : h'.incoming = h.incoming.set p none)
    (hnum : h'.numStored = h.numStored - 1) :
    Hashed h' ∧ occupied h'.incoming ≤ occupied h.incoming ∧
      ∀ y, h'.Stored y ↔ h.Stored y ∧ y.eventId ≠ x.eventId := by
  have hlt : p < h.incoming.length := (List.getElem?_eq_some_iff.mp hp).1
  have hget : ∀ (k : Nat) (y : TwEvent T), h'.incoming[k]? = some (some y) ↔
      k ≠ p ∧ h.incoming[k]? = some (some y) := by
    intro k y
    rw [hincoming, set_slot hlt]
    simp only [reduceCtorEq, and_false, false_or]
  have hsome : h.incoming[p] = some x := by
    rw [List.getElem?_eq_getElem hlt, Option.some.injEq] at hp
    exact hp
  have hcount : occupied h'.incoming + 1 = occupied h.incoming := by
    have hpos : 0 < h.incoming.countP (·.isSome) :=
      List.countP_pos_iff.mpr
        ⟨h.incoming[p], List.getElem_mem hlt, by rw [hsome, Option.isSome_some]⟩
    unfold occupied
    rw [hincoming, List.countP_set hlt, hsome]
    simp only [Option.isSome_none, Option.isSome_some, Bool.false_eq_true, if_false, if_true]
    omega
  have hhashed : Hashed h' := by
    refine ⟨?_, ?_, ?_, fun k y hk => ?_, fun k l y z hk hl => ?_, ?_⟩
    · rw [hsize]
      exact hh.prime
    · rw [hsize]
      exact hh.small
    · rw [hincoming, List.length_set, hsize]
      exact hh.length
    · rw [hsize]
      exact hh.placed k y ((hget k y).mp hk).2
    · exact hh.distinct k l y z ((hget k y).mp hk).2 ((hget l z).mp hl).2
    · have hstored := hh.stored
      omega
  refine ⟨hhashed, by omega, fun y => ⟨?_, ?_⟩⟩
  · rintro ⟨k, hk⟩
    obtain ⟨hne, hk⟩ := (hget k y).mp hk
    exact ⟨⟨k, hk⟩, fun hid => hne (hh.distinct k p y x hk hp hid)⟩
  · rintro ⟨⟨k, hk⟩, hid⟩
    refine ⟨k, (hget k y).mpr ⟨?_, hk⟩⟩
    rintro rfl
    rw [hp, Option.some.injEq, Option.some.injEq] at hk
    exact hid (congrArg TwEvent.eventId hk.symm)

/-- `tw_hash_remove` of a stored id returns the event stored under it. -/
theorem Hashed.twHashRemove (hh : Hashed h) (hx : h.Stored x) (hid : x.eventId = e.eventId) :
    ∃ h', h.twHashRemove e = .ok (some x, h') ∧ Hashed h' ∧ h'.hashSize = h.hashSize ∧
      occupied h'.incoming ≤ occupied h.incoming ∧
      ∀ y, h'.Stored y ↔ h.Stored y ∧ y.eventId ≠ e.eventId := by
  obtain ⟨p, hp⟩ := hx
  obtain ⟨i, hi, rfl⟩ := hh.placed p x hp
  have hplace : place h.hashSize x i = place h.hashSize e i := by
    unfold place
    rw [hid]
  have hfind : findEntry h.incoming e h.hashSize = .ok (place h.hashSize x i) :=
    findEntry_ok hh.length hh.pos hh.small
      (fun k y hk hy => hh.distinct k _ y x hk hp (hy.trans hid.symm)) hi (hplace ▸ hp) hid
  obtain ⟨hhashed, hle, hstored⟩ := hh.clear ⟨h.incoming.set (place h.hashSize x i) none,
    h.numStored - 1, h.hashSize⟩ hp rfl rfl rfl
  rw [hid] at hstored
  refine ⟨_, ?_, hhashed, rfl, hle, hstored⟩
  unfold HashTable.twHashRemove
  rw [hfind]
  dsimp only
  rw [hp, Option.join_some]

theorem not_stored_allocateTable {size n : Nat} {num : Int} (x : TwEvent T) :
    ¬ Stored ⟨allocateTable size, num, n⟩ x := by
  rintro ⟨k, hk⟩
  unfold allocateTable at hk
  rw [List.getElem?_replicate] at hk
  split at hk <;> cases hk

theorem occupied_allocateTable (size : Nat) : occupied (allocateTable (T := T) size) = 0 := by
  unfold occupied allocateTable
  rw [List.countP_replicate, Option.isSome_none, if_neg Bool.false_ne_true]

theorem Hashed.empty {size : Nat} (hp : isPrime size = true) (hsmall : size < 2 ^ 30) :
    Hashed (⟨allocateTable size, 0, size⟩ : HashTable T) := by
  have hget : ∀ (k : Nat) (x : TwEvent T), (allocateTable size)[k]? ≠ some (some x) :=
    fun k x hk =>
      have hnone : ¬ Stored ⟨allocateTable size, 0, size⟩ x := not_stored_allocateTable x
      hnone ⟨k, hk⟩
  refine ⟨hp, hsmall, List.length_replicate, fun k x hk => absurd hk (hget k x),
    fun k _ x _ hk => absurd hk (hget k x), ?_⟩
  rw [occupied_allocateTable, Nat.cast_zero]

/-- The loop of `rehash` puts the rest of the old table into the new one. -/
theorem rehashLoop_ok {old : List (Option (TwEvent T))} (hh : Hashed h)
    (hhalf : occupied h.incoming + occupied old ≤ h.hashSize / 2)
    (hdist : old.Pairwise fun a b => ∀ x ∈ a, ∀ y ∈ b, x.eventId ≠ y.eventId)
    (hnew : ∀ x, h.Stored x → ∀ y, some y ∈ old → x.eventId ≠ y.eventId) :
    ∃ h', h.rehashLoop old = .ok h' ∧ Hashed h' ∧ h'.hashSize = h.hashSize ∧
      h'.numStored = h.numStored + occupied old ∧
      ∀ x, h'.Stored x ↔ h.Stored x ∨ some x ∈ old := by
  induction old generalizing h with
  | nil => exact ⟨h, rfl, hh, rfl, by simp [occupied], by simp⟩
  | cons entry old ih =>
      rw [List.pairwise_cons] at hdist
      cases entry with
      | none =>
          have hcons : occupied (none :: old) = occupied old := by
            simp only [occupied, List.countP_cons, Option.isSome_none, Bool.false_eq_true,
              if_false, Nat.add_zero]
          rw [hcons] at hhalf ⊢
          obtain ⟨h', hr, hh', hsize, hnum, hstored⟩ := ih hh hhalf hdist.2
            fun x hx y hy => hnew x hx y (List.mem_cons_of_mem _ hy)
          refine ⟨h', ?_, hh', hsize, hnum, fun x => ?_⟩
          · rw [rehashLoop, hr]
          · rw [hstored x, List.mem_cons]
            simp only [reduceCtorEq, false_or]
      | some e =>
          have hcons : occupied (some e :: old) = occupied old + 1 := by
            simp only [occupied, List.countP_cons, Option.isSome_some, if_true]
          rw [hcons] at hhalf ⊢
          obtain ⟨incoming, hins, hh₁, hst₁⟩ := hh.insert (e := e) (by omega)
            fun x hx => hnew x hx e List.mem_cons_self
          have hocc : (occupied incoming : Int) = occupied h.incoming + 1 := by
            rw [← hh.stored]
            exact hh₁.stored.symm
          obtain ⟨h', hr, hh', hsize, hnum, hstored⟩ := ih hh₁ (by dsimp only; omega) hdist.2
            fun x hx y hy => by
              rcases (hst₁ x).mp hx with rfl | hx
              · exact hdist.1 (some y) hy x rfl y rfl
              · exact hnew x hx y (List.mem_cons_of_mem _ hy)
          refine ⟨h', ?_, hh', hsize, ?_, fun x => ?_⟩
          · rw [rehashLoop, hins]
            exact hr
          · dsimp only at hnum
            omega
          · rw [hstored x, hst₁ x, List.mem_cons, Option.some.injEq]
            tauto

theorem Hashed.pairwise (hh : Hashed h) :
    h.incoming.Pairwise fun a b => ∀ x ∈ a, ∀ y ∈ b, x.eventId ≠ y.eventId := by
  rw [List.pairwise_iff_getElem]
  intro i j hi hj hij x hx y hy hid
  have hget : ∀ (k : Nat) (hk : k < h.incoming.length) (z : TwEvent T), z ∈ h.incoming[k] →
      h.incoming[k]? = some (some z) := by
    intro k hk z hz
    rw [List.getElem?_eq_getElem hk, Option.mem_def.mp hz]
  have heq := hh.distinct i j x y (hget i hi x hx) (hget j hj y hy) hid
  omega

/-- `rehash` keeps the events, so the number of them is the old one. -/
theorem Hashed.rehash (hh : Hashed h) (hle : occupied h.incoming ≤ h.hashSize)
    (hroom : ∀ r, nextPrime h.hashSize = .ok r → r < 2 ^ 30) :
    ∃ h', h.rehash = .ok h' ∧ Hashed h' ∧ occupied h'.incoming ≤ h'.hashSize / 2 ∧
      ∀ x, h'.Stored x ↔ h.Stored x := by
  obtain ⟨size, hsize, hprime, hbig⟩ := nextPrime_ok h.hashSize
  have hhalf : occupied (allocateTable (T := T) size) + occupied h.incoming ≤ size / 2 := by
    rw [occupied_allocateTable]
    omega
  obtain ⟨h', hr, hh', hsize', hnum, hstored⟩ := rehashLoop_ok
    (Hashed.empty hprime (hroom size hsize)) hhalf hh.pairwise
    fun x hx => absurd hx (not_stored_allocateTable x)
  dsimp only at hsize' hnum
  have hsame : h.numStored = h'.numStored := by
    rw [hnum, hh.stored, zero_add]
  have hocc : occupied h'.incoming = occupied h.incoming := by
    have h1 := hh.stored
    have h2 := hh'.stored
    omega
  refine ⟨h', ?_, hh', ?_, fun x => ?_⟩
  · unfold HashTable.rehash
    rw [hsize]
    dsimp only
    rw [hr]
    exact if_neg (not_not.mpr hsame)
  · rw [hocc, hsize']
    omega
  · rw [hstored x, or_iff_right (not_stored_allocateTable x), List.mem_iff_getElem?]
    exact Iff.rfl

/-- A table of less than half of the slots, as between two calls. -/
structure Kept (h : HashTable T) : Prop extends Hashed h where
  half : occupied h.incoming ≤ h.hashSize / 2

/-- The size after the next insertion is below `2 ^ 30`. -/
def Roomy (h : HashTable T) : Prop :=
  ((h.hashSize / 2 : Nat) : Int) < h.numStored + 1 → ∀ r, nextPrime h.hashSize = .ok r → r < 2 ^ 30

theorem Kept.twHashInsert (hh : Kept h) (hnew : ∀ x, h.Stored x → x.eventId ≠ e.eventId)
    (hroom : h.Roomy) :
    ∃ h', h.twHashInsert e = .ok h' ∧ Kept h' ∧ ∀ x, h'.Stored x ↔ x = e ∨ h.Stored x := by
  obtain ⟨incoming, hins, hh₁, hst₁⟩ := hh.toHashed.insert hh.half hnew
  have hocc : (occupied incoming : Int) = h.numStored + 1 := hh₁.stored.symm
  have hhalf := hh.half
  have hnum := hh.stored
  unfold HashTable.twHashInsert
  rw [hins]
  dsimp only
  split
  next hfull =>
    have hle : occupied incoming ≤ h.hashSize := by
      have hodd := odd_of_isPrime hh.prime
      omega
    obtain ⟨h', hr, hh', hhalf', hst'⟩ := hh₁.rehash hle (hroom hfull)
    exact ⟨h', hr, ⟨hh', hhalf'⟩, fun x => (hst' x).trans (hst₁ x)⟩
  next hfull => exact ⟨_, rfl, ⟨hh₁, by dsimp only; omega⟩, hst₁⟩

theorem Kept.twHashRemove (hh : Kept h) (hx : h.Stored x) (hid : x.eventId = e.eventId) :
    ∃ h', h.twHashRemove e = .ok (some x, h') ∧ Kept h' ∧
      ∀ y, h'.Stored y ↔ h.Stored y ∧ y.eventId ≠ e.eventId := by
  obtain ⟨h', hr, hh', hsize, hle, hst⟩ := hh.toHashed.twHashRemove hx hid
  refine ⟨h', hr, ⟨hh', ?_⟩, hst⟩
  rw [hsize]
  exact hle.trans hh.half

theorem Kept.empty {size : Nat} (hp : isPrime size = true) (hsmall : size < 2 ^ 30) :
    Kept (⟨allocateTable size, 0, size⟩ : HashTable T) := by
  refine ⟨Hashed.empty hp hsmall, ?_⟩
  rw [occupied_allocateTable]
  exact Nat.zero_le _

end HashTable

/-! ## The tables of a PE -/

namespace TwHash

open HashTable

variable {s s' : TwHash T} {pe : Nat}

/-- The events of the table of one sender change from `P` to `Q`, and the other tables stay. -/
def Updates (s s' : TwHash T) (pe : Nat) (Q : TwEvent T → Prop) : Prop :=
  s'.nnodes = s.nnodes ∧ (∀ x, (s'.table pe).Stored x ↔ Q x) ∧
    ∀ q, q ≠ pe → s'.table q = s.table q

/-- Calls for a sender that exists: an insertion of an event whose id is not in its
table, which then has less than `2 ^ 30` slots, or a removal of an id that is. -/
def Admissible (s : TwHash T) : HashOp T → Prop
  | .insert e pe => pe < s.nnodes ∧ (∀ x, (s.table pe).Stored x → x.eventId ≠ e.eventId) ∧
      (s.table pe).Roomy
  | .remove e pe => pe < s.nnodes ∧ ∃ x, (s.table pe).Stored x ∧ x.eventId = e.eventId

instance (t : HashTable T) : Decidable t.Roomy :=
  match ht : nextPrime t.hashSize with
  | .ok r => decidable_of_iff (((t.hashSize / 2 : Nat) : Int) < t.numStored + 1 → r < 2 ^ 30)
      ⟨fun h hf q hq => by
        rw [ht, Except.ok.injEq] at hq
        exact hq ▸ h hf, fun h hf => h hf r ht⟩
  | .error _ => .isTrue fun _ q hq => by rw [ht] at hq; cases hq

instance [DecidableEq T] (s : TwHash T) : (op : HashOp T) → Decidable (s.Admissible op)
  | .insert e pe =>
      decidable_of_iff (pe < s.nnodes ∧ (∀ entry ∈ (s.table pe).incoming, ∀ x ∈ entry,
        x.eventId ≠ e.eventId) ∧ (s.table pe).Roomy) <| by
        refine and_congr_right fun _ => and_congr_left fun _ =>
          ⟨fun h x hx => ?_, fun h o ho x hx => ?_⟩
        · obtain ⟨k, hk⟩ := hx
          exact h _ (List.mem_of_getElem? hk) x rfl
        · obtain ⟨k, hk⟩ := List.mem_iff_getElem?.mp ho
          exact h x ⟨k, hk.trans (congrArg some hx)⟩
  | .remove e pe =>
      decidable_of_iff (pe < s.nnodes ∧ ∃ entry ∈ (s.table pe).incoming, ∃ x ∈ entry,
        x.eventId = e.eventId) <| by
        refine and_congr_right fun _ => ⟨?_, ?_⟩
        · rintro ⟨o, ho, x, hx, hid⟩
          obtain ⟨k, hk⟩ := List.mem_iff_getElem?.mp ho
          exact ⟨x, ⟨k, hk.trans (congrArg some hx)⟩, hid⟩
        · rintro ⟨x, ⟨k, hk⟩, hid⟩
          exact ⟨_, List.mem_of_getElem? hk, x, rfl, hid⟩

/-- The tables after calls that are all admissible, from tables that are made with
less than `2 ^ 30` slots. -/
def AdmissibleRun (nnodes gTwHashSize : Nat) : TwHash T → Prop :=
  ReachableVia (fun s => create nnodes gTwHashSize = .ok s ∧ ∀ pe, (s.table pe).hashSize < 2 ^ 30)
    (fun a op b => a.call op = .ok b) Admissible

/-- `tw_hash_create` ends, and all its tables are empty. -/
theorem create_ok (nnodes gTwHashSize : Nat) :
    ∃ s : TwHash T, create nnodes gTwHashSize = .ok s ∧ s.nnodes = nnodes ∧
      ∃ size, isPrime size = true ∧ ∀ pe, s.table pe = ⟨allocateTable size, 0, size⟩ := by
  unfold create
  by_cases hp : isPrime gTwHashSize = true
  · rw [if_pos hp]
    exact ⟨_, rfl, rfl, gTwHashSize, hp, fun _ => rfl⟩
  · obtain ⟨r, hr, hrp, -⟩ := nextPrime_ok gTwHashSize
    rw [if_neg hp, hr]
    exact ⟨_, rfl, rfl, r, hrp, fun _ => rfl⟩

theorem twHashInsert_ok (hs : ∀ pe, Kept (s.table pe)) {e : TwEvent T}
    (ha : s.Admissible (.insert e pe)) :
    ∃ s', s.twHashInsert e pe = .ok s' ∧ (∀ q, Kept (s'.table q)) ∧
      Updates s s' pe fun x => x = e ∨ (s.table pe).Stored x := by
  obtain ⟨-, hnew, hroom⟩ := ha
  obtain ⟨t, ht, hkept, hst⟩ := (hs pe).twHashInsert hnew hroom
  unfold TwHash.twHashInsert
  rw [ht]
  refine ⟨_, rfl, fun q => ?_, rfl, fun x => ?_, fun q hq => Function.update_of_ne hq _ _⟩
  · by_cases hq : q = pe
    · subst hq
      dsimp only
      rw [Function.update_self]
      exact hkept
    · dsimp only
      rw [Function.update_of_ne hq]
      exact hs q
  · dsimp only
    rw [Function.update_self]
    exact hst x

theorem twHashRemove_ok (hs : ∀ pe, Kept (s.table pe)) {e x : TwEvent T} (hpe : pe < s.nnodes)
    (hx : (s.table pe).Stored x) (hid : x.eventId = e.eventId) :
    ∃ s', s.twHashRemove e pe = .ok (some x, s') ∧ (∀ q, Kept (s'.table q)) ∧
      Updates s s' pe fun y => (s.table pe).Stored y ∧ y.eventId ≠ e.eventId := by
  obtain ⟨t, ht, hkept, hst⟩ := (hs pe).twHashRemove hx hid
  unfold TwHash.twHashRemove
  rw [if_neg (by omega), ht]
  refine ⟨_, rfl, fun q => ?_, rfl, fun x => ?_, fun q hq => Function.update_of_ne hq _ _⟩
  · by_cases hq : q = pe
    · subst hq
      dsimp only
      rw [Function.update_self]
      exact hkept
    · dsimp only
      rw [Function.update_of_ne hq]
      exact hs q
  · dsimp only
    rw [Function.update_self]
    exact hst x

theorem kept_of_run {nnodes gTwHashSize : Nat} (hs : AdmissibleRun nnodes gTwHashSize s) :
    ∀ pe, Kept (s.table pe) := by
  refine hs.invariant (P := fun s => ∀ pe, Kept (s.table pe)) (fun s hinit pe => ?_)
    fun a op b hk ha hst => ?_
  · obtain ⟨hc, hsmall⟩ := hinit
    obtain ⟨s', hc', -, size, hp, htable⟩ := create_ok (T := T) nnodes gTwHashSize
    rw [hc, Except.ok.injEq] at hc'
    subst hc'
    have hsize : size < 2 ^ 30 := by
      have := hsmall pe
      rw [htable pe] at this
      exact this
    rw [htable pe]
    exact Kept.empty hp hsize
  · cases op with
    | insert e pe =>
        obtain ⟨b', hb, hk', -⟩ := twHashInsert_ok hk ha
        rw [call, hb, Except.ok.injEq] at hst
        subst hst
        exact hk'
    | remove e pe =>
        obtain ⟨hpe, x, hx, hid⟩ := ha
        obtain ⟨b', hb, hk', -⟩ := twHashRemove_ok hk hpe hx hid
        rw [call, hb, Except.map, Except.ok.injEq] at hst
        subst hst
        exact hk'

/-- The tables are made for every size; `num_stored` counts the occupied slots; an
insertion adds the event, and a removal returns the event of the id and takes it out.
No call stops with an error, so the probes stay in the table, and end in its half. -/
theorem hash_index_correct (nnodes gTwHashSize : Nat) :
    (∃ s : TwHash T, create nnodes gTwHashSize = .ok s ∧
      ∀ pe x, ¬ (s.table pe).Stored x) ∧
    ∀ s : TwHash T, AdmissibleRun nnodes gTwHashSize s →
      (∀ pe, (s.table pe).numStored = occupied (s.table pe).incoming) ∧
      (∀ e pe, s.Admissible (.insert e pe) → ∃ s', s.twHashInsert e pe = .ok s' ∧
        Updates s s' pe fun x => x = e ∨ (s.table pe).Stored x) ∧
      ∀ e pe x, pe < s.nnodes → (s.table pe).Stored x → x.eventId = e.eventId →
        ∃ s', s.twHashRemove e pe = .ok (some x, s') ∧
          Updates s s' pe fun y => (s.table pe).Stored y ∧ y ≠ x := by
  refine ⟨?_, fun s hs => ?_⟩
  · obtain ⟨s, hc, -, size, -, htable⟩ := create_ok (T := T) nnodes gTwHashSize
    refine ⟨s, hc, fun pe x => ?_⟩
    rw [htable pe]
    exact not_stored_allocateTable x
  · have hk := kept_of_run hs
    refine ⟨fun pe => (hk pe).stored, fun e pe ha => ?_, fun e pe x hpe hx hid => ?_⟩
    · obtain ⟨s', hs', -, hup⟩ := twHashInsert_ok hk ha
      exact ⟨s', hs', hup⟩
    · obtain ⟨s', hs', -, hnn, hst, hother⟩ := twHashRemove_ok hk hpe hx hid
      refine ⟨s', hs', hnn, fun y => (hst y).trans (and_congr_right fun hy => ?_), hother⟩
      rw [not_iff_not, ← hid]
      exact ⟨(hk pe).toHashed.eq_of_eventId hy hx, congrArg TwEvent.eventId⟩

/-- An event with the id `n`. -/
def numbered (n : Nat) : TwEvent Int := ⟨n, ⟨n, 0, [n]⟩, n, 0, 0, 0⟩

theorem create_two : create 2 2 = .ok (⟨2, fun _ => ⟨allocateTable 5, 0, 5⟩⟩ : TwHash Int) := by
  have hprime : isPrime 2 = false := by decide
  have hnext : nextPrime 2 = .ok 5 := by decide +kernel
  unfold create
  rw [hprime, if_neg Bool.false_ne_true, hnext]

theorem hash_index_correct_run :
    ∃ s : TwHash Int, AdmissibleRun 2 2 s ∧ (s.table 1).hashSize = 11 ∧
      (s.table 1).numStored = 2 ∧ occupied (s.table 1).incoming = 2 ∧
      ∃ s', s.twHashRemove (numbered 11) 1 = .ok (some (numbered 11), s') := by
  have hrun : ∃ s : TwHash Int, AdmissibleRun 2 2 s ∧ decide ((s.table 1).hashSize = 11 ∧
      (s.table 1).numStored = 2 ∧ some (numbered 11) ∈ (s.table 1).incoming ∧
      s.nnodes = 2) = true :=
    ReachableVia.exists_of_runList (fun a op => decide (a.Admissible op)) _
      [.insert (numbered 1) 1, .insert (numbered 6) 1, .insert (numbered 11) 1,
        .remove (numbered 6) 1] (fun _ _ h => of_decide_eq_true h)
      (.start ⟨create_two, fun _ => show 5 < 2 ^ 30 by decide⟩)
      (by decide +kernel)
  obtain ⟨s, hs, ht⟩ := hrun
  obtain ⟨hsize, hnum, hmem, hnodes⟩ := of_decide_eq_true ht
  obtain ⟨k, hk⟩ := List.mem_iff_getElem?.mp hmem
  obtain ⟨hocc, -, hremove⟩ := (hash_index_correct 2 2).2 s hs
  obtain ⟨s', hs', -⟩ := hremove (numbered 11) 1 (numbered 11) (by omega) ⟨k, hk⟩ rfl
  have hocc1 := hocc 1
  exact ⟨s, hs, hsize, hnum, by omega, s', hs'⟩

end TwHash

end Ross

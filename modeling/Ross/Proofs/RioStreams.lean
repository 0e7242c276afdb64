import Ross.Core.RioStreams
import Ross.Proofs.RioSerialize
import Ross.Proofs.RngReverse

/-!
# Streams in a record

A record holds one stream, the first of the LP: the others keep what the LP had before it
was loaded.
-/

namespace Ross

open ByteLayout RoundTrip

/-- Two streams agree in the fields that a record is to restore. -/
structure SameSeeds (randNormal : Bool) (a b : NormalStream) : Prop where
  ig : a.ig = b.ig
  lg : a.lg = b.lg
  cg : a.cg = b.cg
  normal : randNormal = true → a.twNormalU1 = b.twNormalU1 ∧ a.twNormalU2 = b.twNormalU2 ∧
    a.twNormalFlipflop = b.twNormalFlipflop

/-- The components after each of the next `k` draws. -/
def RngStream.draws (r : RngStream) (k : Nat) : Option (Fin 4 → Int) :=
  (iterate rngGenVal k ⟨0, fun j => (r.cg j).toInt⟩).map (·.cg)

theorem SameSeeds.draws {randNormal : Bool} {a b : NormalStream} (h : SameSeeds randNormal a b)
    (k : Nat) : a.draws k = b.draws k := by
  unfold RngStream.draws
  rw [h.cg]

/-- A loop whose turns after the first change nothing. -/
theorem iterate_of_idem {α : Type} {f : α → α} (h : ∀ x, f (f x) = f x) (n : Nat) (x : α) :
    f^[n + 1] x = f x := by
  induction n with
  | zero => rfl
  | succ n ih => rw [Function.iterate_succ_apply', ih, h]

/-! ## The bytes of a record -/

namespace LpStore

variable {randNormal : Bool} {tmp : LpStore}

theorem fields_fit (randNormal : Bool) (tmp : LpStore) :
    List.Forall₂ (fun w v => v < 256 ^ w) (widths randNormal) (tmp.fields randNormal) := by
  have hrng : List.Forall₂ (fun w v => v < 256 ^ w) (List.replicate 12 4)
      (List.ofFn fun i => (tmp.rng i).toNat) := by
    have hlen : (List.ofFn fun i => (tmp.rng i).toNat).length = 12 := List.length_ofFn
    have hfit : ∀ v ∈ List.ofFn fun i => (tmp.rng i).toNat, v < 256 ^ 4 := by
      intro v hv
      obtain ⟨i, rfl⟩ := List.mem_ofFn.mp hv
      exact (tmp.rng i).isLt
    have h := forall₂_replicate hfit
    rwa [hlen] at h
  unfold widths fields
  cases randNormal with
  | true =>
      exact .cons tmp.gid.isLt (List.rel_append hrng (.cons tmp.twNormalU1.isLt
        (.cons tmp.twNormalU2.isLt (.cons tmp.twNormalFlipflop.isLt
          (.cons tmp.criticalPath.isLt .nil)))))
  | false =>
      exact .cons tmp.gid.isLt (List.rel_append hrng (.cons tmp.criticalPath.isLt
        (.cons tmp.padding.isLt .nil)))

theorem getD_rng (x : Nat) (f : Fin 12 → Nat) (l : List Nat) (i : Fin 12) :
    (x :: List.ofFn f ++ l).getD (i + 1) 0 = f i := by
  have hlen : (List.ofFn f).length = 12 := List.length_ofFn
  rw [List.cons_append, List.getD_cons_succ, List.getD_append _ _ _ _ (by omega),
    List.getD_eq_getElem _ _ (by omega), List.getElem_ofFn]

theorem getD_tail (x : Nat) (f : Fin 12 → Nat) (l : List Nat) (i : Nat) :
    (x :: List.ofFn f ++ l).getD (13 + i) 0 = l.getD i 0 := by
  have hlen : (List.ofFn f).length = 12 := List.length_ofFn
  rw [Nat.add_comm, List.cons_append, List.getD_cons_succ,
    List.getD_append_right _ _ _ _ (by omega), hlen, Nat.add_sub_cancel]

/-- What `memcpy` gives back of a record: all its fields. -/
theorem ofBytes_pack (randNormal : Bool) (tmp : LpStore) (rest : List UInt8) :
    let r := ofBytes randNormal (pack (widths randNormal) (tmp.fields randNormal) ++ rest)
    r.gid = tmp.gid ∧ r.rng = tmp.rng ∧ r.criticalPath = tmp.criticalPath ∧
      (randNormal = true → r.twNormalU1 = tmp.twNormalU1 ∧ r.twNormalU2 = tmp.twNormalU2 ∧
        r.twNormalFlipflop = tmp.twNormalFlipflop) := by
  have hun := unpack_pack (fields_fit randNormal tmp) rest
  have hrng : ∀ i : Fin 12, BitVec.ofNat 32 ((tmp.fields randNormal).getD (i + 1) 0) =
      tmp.rng i := by
    intro i
    unfold fields
    rw [getD_rng]
    exact ofNat_toNat _
  have htail : ∀ i, (tmp.fields randNormal).getD (13 + i) 0 =
      (if randNormal then [tmp.twNormalU1.toNat, tmp.twNormalU2.toNat,
        tmp.twNormalFlipflop.toNat, tmp.criticalPath.toNat]
      else [tmp.criticalPath.toNat, tmp.padding.toNat]).getD i 0 := by
    intro i
    unfold fields
    exact getD_tail _ _ _ i
  have hgid : BitVec.ofNat 64 ((tmp.fields randNormal).getD 0 0) = tmp.gid := ofNat_toNat _
  unfold ofBytes
  simp only [hun, hrng, hgid]
  cases randNormal with
  | true =>
      refine ⟨trivial, trivial, ?_, fun _ => ⟨?_, ?_, ?_⟩⟩
      · exact (congrArg (BitVec.ofNat 32) (htail 3)).trans (ofNat_toNat _)
      · exact (congrArg (BitVec.ofNat 64) (htail 0)).trans (ofNat_toNat _)
      · exact (congrArg (BitVec.ofNat 64) (htail 1)).trans (ofNat_toNat _)
      · exact (congrArg (BitVec.ofNat 32) (htail 2)).trans (ofNat_toNat _)
  | false =>
      refine ⟨trivial, trivial, ?_, fun h => by cases h⟩
      exact (congrArg (BitVec.ofNat 32) (htail 0)).trans (ofNat_toNat _)

theorem storeTurn_storeTurn (randNormal : Bool) (rng : NormalStream) (tmp : LpStore) :
    storeTurn randNormal rng (storeTurn randNormal rng tmp) = storeTurn randNormal rng tmp := by
  cases randNormal <;> rfl

end LpStore

/-! ## LPs -/

namespace StreamLp

variable {n : Nat}

theorem loadTurn_loadTurn (randNormal : Bool) (tmp : LpStore) (lp : StreamLp n) :
    loadTurn randNormal tmp (loadTurn randNormal tmp lp) = loadTurn randNormal tmp lp := by
  cases randNormal <;> simp [loadTurn]

/-- A record of one stream is the one that `io_store_checkpoint` writes. -/
theorem ioLpSerialize_single {S : Type} (lp : RioLp S) (s : NormalStream)
    (hs : s.toRngStream = lp.rng) (tmp : LpStore) (htmp : tmp.padding = 0) :
    ioLpSerialize false tmp (⟨lp.gid, fun _ => s, lp.criticalPath⟩ : StreamLp 0) =
      Ross.ioLpSerialize lp := by
  unfold ioLpSerialize Ross.ioLpSerialize LpStore.fields LpStore.widths LpStore.storeTurn
  simp only [zero_add, Function.iterate_one, Bool.false_eq_true, if_false, htmp, ← hs]
  rfl

theorem stored_rng (randNormal : Bool) (tmp : LpStore) (lp : StreamLp n) :
    (stored randNormal tmp lp).rng = (lp.rng 0).store := by
  cases randNormal <;> rfl

theorem stored_gid (randNormal : Bool) (tmp : LpStore) (lp : StreamLp n) :
    (stored randNormal tmp lp).gid = lp.gid := by
  cases randNormal <;> rfl

/-- What `io_lp_deserialize` makes of an LP and a record: the first stream is the saved
one, the others are the LP's own. -/
theorem ioLpDeserialize_serialize (randNormal : Bool) (tmp : LpStore) (lp old : StreamLp n)
    (rest : List UInt8) :
    let r := ioLpDeserialize randNormal old (ioLpSerialize randNormal tmp lp ++ rest)
    r.gid = lp.gid ∧ r.criticalPath = lp.criticalPath ∧
      SameSeeds randNormal (r.rng 0) (lp.rng 0) ∧ ∀ i, i ≠ 0 → r.rng i = old.rng i := by
  have hstore : ioLpSerialize randNormal tmp lp =
      pack (LpStore.widths randNormal) ((stored randNormal tmp lp).fields randNormal) := by
    unfold ioLpSerialize stored
    simp only [iterate_of_idem (LpStore.storeTurn_storeTurn _ _)]
  obtain ⟨hgid, hrng, hcp, hnormal⟩ :=
    LpStore.ofBytes_pack randNormal (stored randNormal tmp lp) rest
  rw [← hstore] at hgid hrng hcp hnormal
  rw [stored_rng] at hrng
  generalize hb : ioLpSerialize randNormal tmp lp ++ rest = b at *
  unfold ioLpDeserialize
  simp only [iterate_of_idem (loadTurn_loadTurn _ _)]
  generalize LpStore.ofBytes randNormal b = t at *
  refine ⟨?_, ?_, ⟨?_, ?_, ?_, ?_⟩, ?_⟩
  · rw [stored_gid] at hgid
    exact hgid
  · exact hcp
  · ext1 j
    have hig : ((loadTurn randNormal t { old with gid := t.gid }).rng 0).ig j =
        t.rng (j.castLE (by omega)) := by
      cases randNormal <;> simp [loadTurn]
    rw [hig, hrng]
    exact RngStream.store_ig _ j _
  · ext1 j
    have hlg : ((loadTurn randNormal t { old with gid := t.gid }).rng 0).lg j =
        t.rng (j.natAdd 4 |>.castLE (by omega)) := by
      cases randNormal <;> simp [loadTurn]
    rw [hlg, hrng, ← RngStream.store_lg _ j (by omega)]
    exact congrArg _ (Fin.ext (Nat.add_comm 4 j))
  · ext1 j
    have hcg : ((loadTurn randNormal t { old with gid := t.gid }).rng 0).cg j =
        t.rng (j.natAdd 8) := by
      cases randNormal <;> simp [loadTurn]
    rw [hcg, hrng, ← RngStream.store_cg _ j (by omega)]
    exact congrArg _ (Fin.ext (Nat.add_comm 8 j))
  · intro h
    obtain ⟨h1, h2, h3⟩ := hnormal h
    subst h
    simp only [loadTurn, if_true, Function.update_self, h1, h2, h3]
    exact ⟨rfl, rfl, rfl⟩
  · intro i hi
    simp only [loadTurn]
    exact Function.update_of_ne hi _ _

/-- The restored LP has the gid, the critical path and all streams of the saved one, so
that it draws the same numbers. -/
structure Restores (randNormal : Bool) (tmp : LpStore) (lp old : StreamLp n)
    (rest : List UInt8) : Prop where
  gid : (ioLpDeserialize randNormal old (ioLpSerialize randNormal tmp lp ++ rest)).gid = lp.gid
  criticalPath :
    (ioLpDeserialize randNormal old (ioLpSerialize randNormal tmp lp ++ rest)).criticalPath =
      lp.criticalPath
  seeds : ∀ i, SameSeeds randNormal
    ((ioLpDeserialize randNormal old (ioLpSerialize randNormal tmp lp ++ rest)).rng i) (lp.rng i)
  draws : ∀ i k,
    ((ioLpDeserialize randNormal old (ioLpSerialize randNormal tmp lp ++ rest)).rng i).draws k =
      (lp.rng i).draws k

/-- The record restores an LP if and only if the LP it is loaded into already has the
saved streams from the second one on. -/
theorem restores_iff (randNormal : Bool) (tmp : LpStore) (lp old : StreamLp n)
    (rest : List UInt8) : Restores randNormal tmp lp old rest ↔
      ∀ i, i ≠ 0 → SameSeeds randNormal (old.rng i) (lp.rng i) := by
  obtain ⟨hgid, hcp, hzero, hother⟩ := ioLpDeserialize_serialize randNormal tmp lp old rest
  constructor
  · intro h i hi
    rw [← hother i hi]
    exact h.seeds i
  · intro h
    have hall : ∀ i, SameSeeds randNormal
        ((ioLpDeserialize randNormal old (ioLpSerialize randNormal tmp lp ++ rest)).rng i)
        (lp.rng i) := by
      intro i
      by_cases hi : i = 0
      · rw [hi]
        exact hzero
      · rw [hother i hi]
        exact h i hi
    exact ⟨hgid, hcp, hall, fun i k => (hall i).draws k⟩

/-- Two streams that differ: the second is not restored. -/
def twoStreams (seed : BitVec 32) : StreamLp 1 where
  gid := 7
  rng := fun i =>
    { ig := fun _ => seed + i.val, lg := fun _ => seed + i.val, cg := fun _ => seed + i.val,
      twNormalU1 := 0, twNormalU2 := 0, twNormalFlipflop := 0 }
  criticalPath := 0

/-- The variable `tmp` before anything is stored in it. -/
def blankStore : LpStore := ⟨0, fun _ => 0, 0, 0, 0, 0, 0⟩

theorem second_stream_lost :
    ¬ ∀ (n : Nat) (randNormal : Bool) (tmp : LpStore) (lp old : StreamLp n)
      (rest : List UInt8), Restores randNormal tmp lp old rest := by
  intro h
  have hseed := congrFun ((h 1 false blankStore (twoStreams 11) (twoStreams 21) []).seeds 1).ig 0
  revert hseed
  decide

end StreamLp

end Ross

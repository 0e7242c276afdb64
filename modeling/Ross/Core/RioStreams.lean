import Ross.Core.RioCheckpoint

/-!
# LP records with any number of streams

`io_lp_serialize` and `io_lp_deserialize` for an LP that has `g_tw_nRNG_per_lp` model
streams, with and without `RAND_NORMAL`.
-/

namespace Ross

open ByteLayout

/-- A `tw_rng_stream` with the fields of `RAND_NORMAL`, a `double` being its bits. -/
structure NormalStream extends RngStream where
  twNormalU1 : BitVec 64
  twNormalU2 : BitVec 64
  twNormalFlipflop : BitVec 32

/-- The fields of a `tw_lp` with `n + 1` streams that its record concerns. -/
structure StreamLp (n : Nat) where
  gid : BitVec 64
  rng : Fin (n + 1) → NormalStream
  criticalPath : BitVec 32

/-- The local variable `tmp`, an `io_lp_store`, with the padding at its end. -/
structure LpStore where
  gid : BitVec 64
  rng : Fin 12 → BitVec 32
  twNormalU1 : BitVec 64
  twNormalU2 : BitVec 64
  twNormalFlipflop : BitVec 32
  criticalPath : BitVec 32
  padding : BitVec 32

namespace LpStore

/-- The widths of its fields. -/
def widths (randNormal : Bool) : List Nat :=
  if randNormal then [8] ++ List.replicate 12 4 ++ [8, 8, 4, 4] else ioLpStore

/-- Its fields as numbers. -/
def fields (randNormal : Bool) (tmp : LpStore) : List Nat :=
  tmp.gid.toNat :: List.ofFn (fun i => (tmp.rng i).toNat) ++
    if randNormal then
      [tmp.twNormalU1.toNat, tmp.twNormalU2.toNat, tmp.twNormalFlipflop.toNat,
        tmp.criticalPath.toNat]
    else [tmp.criticalPath.toNat, tmp.padding.toNat]

/-- `memcpy(&tmp, buffer, sizeof(io_lp_store))`. -/
def ofBytes (randNormal : Bool) (b : List UInt8) : LpStore :=
  let v : Nat → Nat := fun i => (unpack (widths randNormal) b).getD i 0
  { gid := BitVec.ofNat 64 (v 0)
    rng := fun i => BitVec.ofNat 32 (v (i + 1))
    twNormalU1 := BitVec.ofNat 64 (if randNormal then v 13 else 0)
    twNormalU2 := BitVec.ofNat 64 (if randNormal then v 14 else 0)
    twNormalFlipflop := BitVec.ofNat 32 (if randNormal then v 15 else 0)
    criticalPath := BitVec.ofNat 32 (if randNormal then v 16 else v 13)
    padding := BitVec.ofNat 32 (if randNormal then 0 else v 14) }

/-- A turn of the loop of `io_lp_serialize`; `rng` is `lp->rng`, the first stream. -/
def storeTurn (randNormal : Bool) (rng : NormalStream) (tmp : LpStore) : LpStore :=
  let tmp := { tmp with rng := rng.store }
  if randNormal then
    { tmp with
      twNormalU1 := rng.twNormalU1
      twNormalU2 := rng.twNormalU2
      twNormalFlipflop := rng.twNormalFlipflop }
  else tmp

end LpStore

namespace StreamLp

variable {n : Nat}

/-- `io_lp_serialize`; `tmp` is the content of the variable before. -/
def ioLpSerialize (randNormal : Bool) (tmp : LpStore) (lp : StreamLp n) : List UInt8 :=
  let tmp := { tmp with gid := lp.gid }
  let tmp := (LpStore.storeTurn randNormal (lp.rng 0))^[n + 1] tmp
  let tmp := { tmp with criticalPath := lp.criticalPath }
  pack (LpStore.widths randNormal) (tmp.fields randNormal)

/-- The variable `tmp` after the loop of `io_lp_serialize`. -/
def stored (randNormal : Bool) (tmp : LpStore) (lp : StreamLp n) : LpStore :=
  { LpStore.storeTurn randNormal (lp.rng 0) { tmp with gid := lp.gid } with
    criticalPath := lp.criticalPath }

/-- A turn of the loop of `io_lp_deserialize`. -/
def loadTurn (randNormal : Bool) (tmp : LpStore) (lp : StreamLp n) : StreamLp n :=
  let rng : NormalStream := { lp.rng 0 with
    ig := fun j => tmp.rng (j.castLE (by omega))
    lg := fun j => tmp.rng (j.natAdd 4 |>.castLE (by omega))
    cg := fun j => tmp.rng (j.natAdd 8) }
  let rng :=
    if randNormal then
      { rng with
        twNormalU1 := tmp.twNormalU1
        twNormalU2 := tmp.twNormalU2
        twNormalFlipflop := tmp.twNormalFlipflop }
    else rng
  { lp with rng := Function.update lp.rng 0 rng }

/-- `io_lp_deserialize`. -/
def ioLpDeserialize (randNormal : Bool) (lp : StreamLp n) (b : List UInt8) : StreamLp n :=
  let tmp := LpStore.ofBytes randNormal b
  let lp := { lp with gid := tmp.gid }
  let lp := (loadTurn randNormal tmp)^[n + 1] lp
  { lp with criticalPath := tmp.criticalPath }

end StreamLp

end Ross

import Mathlib.Algebra.BigOperators.Group.List.Basic
import Mathlib.Tactic.Ring

/-!
# Records as bytes

A record is laid out as its fields one after the other, each as a natural number of a
fixed number of bytes, lowest byte first.
-/

namespace ByteLayout

/-- The `w` bytes of `n`. -/
def bytesOf : Nat → Nat → List UInt8
  | 0, _ => []
  | w + 1, n => UInt8.ofNat n :: bytesOf w (n / 256)

/-- The number that bytes stand for. -/
def ofBytes : List UInt8 → Nat
  | [] => 0
  | b :: bs => b.toNat + 256 * ofBytes bs

/-- The fields `vs` of the widths `ws`. -/
def pack : List Nat → List Nat → List UInt8
  | w :: ws, v :: vs => bytesOf w v ++ pack ws vs
  | _, _ => []

/-- The fields of the widths `ws` at the front of `bs`. -/
def unpack : List Nat → List UInt8 → List Nat
  | [], _ => []
  | w :: ws, bs => ofBytes (bs.take w) :: unpack ws (bs.drop w)

variable {w n : Nat} {ws vs : List Nat} {rest : List UInt8}

@[simp] theorem length_bytesOf (w n : Nat) : (bytesOf w n).length = w := by
  induction w generalizing n with
  | zero => rfl
  | succ w ih => rw [bytesOf, List.length_cons, ih]

theorem ofBytes_bytesOf (h : n < 256 ^ w) : ofBytes (bytesOf w n) = n := by
  induction w generalizing n with
  | zero =>
      rw [pow_zero] at h
      rw [bytesOf, ofBytes]
      omega
  | succ w ih =>
      have hdiv : n / 256 < 256 ^ w := by
        rw [Nat.div_lt_iff_lt_mul (by omega), ← pow_succ]
        exact h
      have hbyte : (UInt8.ofNat n).toNat = n % 256 := UInt8.toNat_ofNat'
      rw [bytesOf, ofBytes, ih hdiv, hbyte]
      omega

theorem length_pack (h : List.Forall₂ (fun w v => v < 256 ^ w) ws vs) :
    (pack ws vs).length = ws.sum := by
  induction h with
  | nil => rfl
  | cons _ _ ih => rw [pack, List.length_append, length_bytesOf, ih, List.sum_cons]

/-- Fields that fit are read back, whatever comes behind them. -/
theorem unpack_pack (h : List.Forall₂ (fun w v => v < 256 ^ w) ws vs) (rest : List UInt8) :
    unpack ws (pack ws vs ++ rest) = vs := by
  induction h with
  | nil => rfl
  | @cons w v ws vs hv _ ih =>
      rw [pack, unpack, List.append_assoc, List.take_left' (length_bytesOf w v),
        List.drop_left' (length_bytesOf w v), ofBytes_bytesOf hv, ih]

theorem forall₂_replicate (h : ∀ v ∈ vs, v < 256 ^ w) :
    List.Forall₂ (fun w v => v < 256 ^ w) (List.replicate vs.length w) vs := by
  induction vs with
  | nil => exact .nil
  | cons v vs ih =>
      rw [List.length_cons, List.replicate_succ]
      exact .cons (h v List.mem_cons_self) (ih fun v' hv' => h v' (List.mem_cons_of_mem _ hv'))

/-- An array of numbers of `w` bytes. -/
def packArray (w : Nat) (vs : List Nat) : List UInt8 := vs.flatMap (bytesOf w)

/-- The `n` numbers of `w` bytes at the front of `bs`. -/
def unpackArray (w : Nat) : Nat → List UInt8 → List Nat
  | 0, _ => []
  | n + 1, bs => ofBytes (bs.take w) :: unpackArray w n (bs.drop w)

@[simp] theorem length_packArray (w : Nat) (vs : List Nat) :
    (packArray w vs).length = w * vs.length := by
  induction vs with
  | nil => rfl
  | cons v vs ih =>
      rw [packArray, List.flatMap_cons, List.length_append, length_bytesOf]
      rw [packArray] at ih
      rw [ih, List.length_cons]
      ring

theorem packArray_append (w : Nat) (vs vs' : List Nat) :
    packArray w (vs ++ vs') = packArray w vs ++ packArray w vs' := by
  unfold packArray
  exact List.flatMap_append

theorem unpackArray_packArray (h : ∀ v ∈ vs, v < 256 ^ w) (rest : List UInt8) :
    unpackArray w vs.length (packArray w vs ++ rest) = vs := by
  induction vs with
  | nil => rfl
  | cons v vs ih =>
      have hv := h v List.mem_cons_self
      have hvs := ih fun v' hv' => h v' (List.mem_cons_of_mem _ hv')
      rw [packArray] at hvs
      rw [List.length_cons, unpackArray, packArray, List.flatMap_cons, List.append_assoc,
        List.take_left' (length_bytesOf w v), List.drop_left' (length_bytesOf w v),
        ofBytes_bytesOf hv, hvs]

/-- The bytes of one number of an array. -/
theorem take_drop_packArray {i v : Nat} (h : vs[i]? = some v) :
    ((packArray w vs).drop (w * i)).take w = bytesOf w v := by
  induction vs generalizing i with
  | nil => cases h
  | cons v' vs ih =>
      rw [packArray, List.flatMap_cons]
      cases i with
      | zero =>
          rw [List.getElem?_cons_zero] at h
          obtain rfl := Option.some.inj h
          rw [Nat.mul_zero, List.drop_zero, List.take_left' (length_bytesOf w v')]
      | succ i =>
          rw [List.getElem?_cons_succ] at h
          have hih := ih h
          rw [packArray] at hih
          rw [Nat.mul_succ, Nat.add_comm, ← List.drop_drop,
            List.drop_left' (length_bytesOf w v'), hih]

end ByteLayout

import Mathlib.Algebra.Order.Ring.Nat
import Mathlib.Data.Nat.Init
import Mathlib.Algebra.Order.Group.Unbundled.Int

/-!
# Little-endian numbers

A number as a fixed count of bytes, the lowest first. What does not fit is cut off, so a
number comes back modulo the power of 256; a signed one comes back as it is when it lies
around zero.
-/

namespace Dolphin.Number

/-- The lowest `width` bytes of a number. -/
def toBytes : Nat → Nat → List UInt8
  | 0, _ => []
  | width + 1, n => UInt8.ofNat n :: toBytes width (n / 256)

/-- The number of some bytes. -/
def ofBytes : List UInt8 → Nat
  | [] => 0
  | byte :: bytes => byte.toNat + 256 * ofBytes bytes

/-- A signed number in two's complement. -/
def toSignedBytes (width : Nat) (x : Int) : List UInt8 :=
  toBytes width (x % (256 ^ width : Nat)).toNat

/-- The signed number of some bytes. -/
def ofSignedBytes (bytes : List UInt8) : Int :=
  (ofBytes bytes : Int).bmod (256 ^ bytes.length)

@[simp] theorem length_toBytes (width n : Nat) : (toBytes width n).length = width := by
  induction width generalizing n with
  | zero => rfl
  | succ width ih => rw [toBytes, List.length_cons, ih]

@[simp] theorem length_toSignedBytes (width : Nat) (x : Int) :
    (toSignedBytes width x).length = width :=
  length_toBytes _ _

/-- A number comes back modulo the power of 256. -/
theorem ofBytes_toBytes (width n : Nat) : ofBytes (toBytes width n) = n % 256 ^ width := by
  induction width generalizing n with
  | zero => simp [toBytes, ofBytes, Nat.mod_one]
  | succ width ih =>
      have low : (UInt8.ofNat n).toNat = n % 256 := UInt8.toNat_ofNat'
      rw [toBytes, ofBytes, low, ih, Nat.pow_succ', Nat.mod_mul]

/-- A signed number comes back when it lies around zero. -/
theorem ofSignedBytes_toSignedBytes {width : Nat} {x : Int}
    (low : -((256 ^ width : Nat) / 2 : Int) ≤ x)
    (high : x < ((256 ^ width : Nat) + 1 : Int) / 2) :
    ofSignedBytes (toSignedBytes width x) = x := by
  have positive : (0 : Int) < (256 ^ width : Nat) := by exact_mod_cast Nat.pow_pos (by decide)
  have residue : 0 ≤ x % (256 ^ width : Nat) := Int.emod_nonneg _ positive.ne'
  have value : (ofBytes (toSignedBytes width x) : Int) = x % (256 ^ width : Nat) := by
    rw [toSignedBytes, ofBytes_toBytes, Int.natCast_emod, Int.toNat_of_nonneg residue,
      Int.emod_emod]
  rw [ofSignedBytes, value, length_toSignedBytes, Int.emod_bmod]
  exact Int.bmod_eq_of_le low high

end Dolphin.Number

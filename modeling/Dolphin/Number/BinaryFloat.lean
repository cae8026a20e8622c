import Mathlib.Algebra.Order.Ring.Nat
import Mathlib.Order.Monotone.Basic
import Mathlib.Tactic.Ring

/-!
# Whole numbers as binary floating point numbers

A positive float has `bits` fraction bits behind its leading one, and an operation
rounds its exact result to the nearest float, ties to the even significand. Only what
casts of whole numbers and the rounding up of their quotients give is described: these
are whole numbers again, and no exponent is too large or too small. Differences of bit
patterns are described in multiples of the smallest positive number, of which every
float is a whole number.
-/

namespace Dolphin.BinaryFloat

/-- `a / b` rounded to the nearest whole number, ties to even. -/
def roundDiv (a b : Nat) : Nat :=
  if 2 * (a % b) < b ∨ 2 * (a % b) = b ∧ a / b % 2 = 0 then a / b else a / b + 1

/-- The float nearest to a whole number. -/
def ofNat (bits n : Nat) : Nat :=
  roundDiv n (2 ^ (n.log2 - bits)) * 2 ^ (n.log2 - bits)

/-- The float nearest to `a / b`, rounded up to a whole number. -/
def ceilDiv (bits a b : Nat) : Nat :=
  if a ≤ b then min a 1
  else
    let exponent := (a / b).log2
    if bits ≤ exponent then
      -- The float is a multiple of this power of two.
      roundDiv a (b * 2 ^ (exponent - bits)) * 2 ^ (exponent - bits)
    else (roundDiv (a * 2 ^ (bits - exponent)) b + 2 ^ (bits - exponent) - 1) /
      2 ^ (bits - exponent)

theorem div_le_roundDiv (a b : Nat) : a / b ≤ roundDiv a b := by
  unfold roundDiv
  split <;> omega

/-- Rounding adds at most half a unit. -/
theorem two_mul_le_of_roundDiv_le {a b c : Nat} (positive : 0 < b) (bound : roundDiv a b ≤ c) :
    2 * a ≤ (2 * c + 1) * b := by
  have split := Nat.div_add_mod a b
  have below := Nat.mod_lt a positive
  unfold roundDiv at bound
  split at bound
  case isTrue down =>
      have scaled : b * (a / b) ≤ b * c := Nat.mul_le_mul_left b bound
      calc 2 * a = 2 * (b * (a / b)) + 2 * (a % b) := by omega
        _ ≤ 2 * (b * c) + b := by omega
        _ = (2 * c + 1) * b := by ring
  case isFalse up =>
      have scaled : b * (a / b + 1) ≤ b * c := Nat.mul_le_mul_left b bound
      rw [Nat.mul_succ] at scaled
      calc 2 * a = 2 * (b * (a / b)) + 2 * (a % b) := by omega
        _ ≤ 2 * (b * c) + b := by omega
        _ = (2 * c + 1) * b := by ring

/-- Rounding does not go beyond a whole number. -/
theorem roundDiv_le {a b c : Nat} (positive : 0 < b) (bound : a ≤ c * b) : roundDiv a b ≤ c := by
  unfold roundDiv
  split
  case isTrue => exact Nat.div_le_of_le_mul (by rwa [Nat.mul_comm])
  case isFalse up =>
      have notWhole : a ≠ c * b := by
        rintro rfl
        rw [Nat.mul_mod_left] at up
        exact up (Or.inl positive)
      exact (Nat.div_lt_iff_lt_mul positive).mpr (lt_of_le_of_ne bound notWhole)

/-- A whole quotient is not rounded. -/
theorem roundDiv_mul_cancel {a b : Nat} (positive : 0 < b) (divides : b ∣ a) :
    roundDiv a b * b = a := by
  have whole : roundDiv a b = a / b := by
    rw [roundDiv, Nat.mod_eq_zero_of_dvd divides, if_pos (Or.inl positive)]
  rw [whole, Nat.div_mul_cancel divides]

/-- Whole numbers with no more binary digits than a significand are floats. -/
theorem ofNat_eq {bits n : Nat} (bound : n ≤ 2 ^ (bits + 1)) : ofNat bits n = n := by
  refine roundDiv_mul_cancel (Nat.two_pow_pos _) ?_
  rcases Nat.lt_or_eq_of_le bound with below | rfl
  · have exponent : n.log2 - bits = 0 := by
      rcases Nat.eq_zero_or_pos n with rfl | positive
      · simp
      · have digits := (Nat.log2_lt positive.ne').mpr below
        omega
    rw [exponent, Nat.pow_zero]
    exact Nat.one_dvd n
  · rw [Nat.log2_two_pow]
    exact pow_dvd_pow 2 (Nat.sub_le _ _)

/-- Larger whole numbers do not become smaller than these. -/
theorem two_pow_le_ofNat {bits n : Nat} (bound : 2 ^ (bits + 1) ≤ n) :
    2 ^ (bits + 1) ≤ ofNat bits n := by
  have positive : n ≠ 0 := by
    have power := Nat.two_pow_pos (bits + 1)
    omega
  have digits : bits + 1 ≤ n.log2 := (Nat.le_log2 positive).mpr bound
  have significand : 2 ^ bits ≤ n / 2 ^ (n.log2 - bits) := by
    rw [Nat.le_div_iff_mul_le (Nat.two_pow_pos _), ← Nat.pow_add,
      Nat.add_sub_cancel' (by omega)]
    exact Nat.log2_self_le positive
  calc 2 ^ (bits + 1) ≤ 2 ^ n.log2 := Nat.pow_le_pow_right (by omega) digits
    _ = 2 ^ bits * 2 ^ (n.log2 - bits) := by
      rw [← Nat.pow_add, Nat.add_sub_cancel' (by omega)]
    _ ≤ ofNat bits n :=
      Nat.mul_le_mul_right _ (Nat.le_trans significand (div_le_roundDiv _ _))

/-- Rounding does not go beyond a float. -/
theorem ofNat_le {bits n significand exponent : Nat} (fits : significand ≤ 2 ^ (bits + 1))
    (bound : n ≤ significand * 2 ^ exponent) : ofNat bits n ≤ significand * 2 ^ exponent := by
  rcases Nat.eq_zero_or_pos n with rfl | positive
  · simp [ofNat, roundDiv]
  · let spacing := n.log2 - bits
    have unit : 0 < 2 ^ spacing := Nat.two_pow_pos spacing
    have top : 2 ^ n.log2 ≤ n := Nat.log2_self_le (Nat.pos_iff_ne_zero.mp positive)
    by_cases coarse : spacing ≤ exponent
    · -- the float is a multiple of the spacing
      obtain ⟨extra, rfl⟩ := Nat.exists_eq_add_of_le coarse
      have whole : significand * 2 ^ (spacing + extra) = significand * 2 ^ extra * 2 ^ spacing := by
        ring
      rw [whole] at bound ⊢
      exact Nat.mul_le_mul_right _ (roundDiv_le unit bound)
    · -- the number is the power of two that its digits start with
      have digits : bits + 1 + exponent ≤ n.log2 := by omega
      have power : significand * 2 ^ exponent ≤ 2 ^ n.log2 :=
        calc significand * 2 ^ exponent
            ≤ 2 ^ (bits + 1) * 2 ^ exponent := Nat.mul_le_mul_right _ fits
          _ = 2 ^ (bits + 1 + exponent) := (Nat.pow_add 2 _ _).symm
          _ ≤ 2 ^ n.log2 := Nat.pow_le_pow_right Nat.zero_lt_two digits
      have exact_ : n = 2 ^ n.log2 := le_antisymm (bound.trans power) top
      have divides : 2 ^ spacing ∣ n := by
        rw [exact_]
        exact Nat.pow_dvd_pow 2 (Nat.sub_le _ _)
      rw [ofNat, roundDiv_mul_cancel unit divides]
      exact bound

theorem log2_mono : Monotone Nat.log2 := by
  intro n m order
  rcases Nat.eq_zero_or_pos n with rfl | positive
  · rw [Nat.log2_zero]
    exact Nat.zero_le _
  · exact (Nat.le_log2 (positive.trans_le order).ne').mpr
      ((Nat.log2_self_le positive.ne').trans order)

theorem roundDiv_mono {a b c : Nat} (order : a ≤ b) : roundDiv a c ≤ roundDiv b c := by
  have quotients : a / c ≤ b / c := Nat.div_le_div_right order
  rcases quotients.eq_or_lt with same | less
  · have remainders : a % c ≤ b % c := by
      have left := Nat.div_add_mod a c
      have right := Nat.div_add_mod b c
      rw [same] at left
      omega
    unfold roundDiv
    rw [same]
    split <;> split <;> omega
  · have above := div_le_roundDiv b c
    have below : roundDiv a c ≤ a / c + 1 := by
      unfold roundDiv
      split <;> omega
    omega

/-- The float nearest to a number has its leading one, or that of the next power. -/
theorem two_pow_log2_le_ofNat {bits n : Nat} (positive : n ≠ 0) : 2 ^ n.log2 ≤ ofNat bits n := by
  have exponent : n.log2 - bits ≤ n.log2 := Nat.sub_le _ _
  have significand : 2 ^ (n.log2 - (n.log2 - bits)) ≤ n / 2 ^ (n.log2 - bits) := by
    rw [Nat.le_div_iff_mul_le (Nat.two_pow_pos _), ← Nat.pow_add, Nat.sub_add_cancel exponent]
    exact Nat.log2_self_le positive
  calc 2 ^ n.log2 = 2 ^ (n.log2 - (n.log2 - bits)) * 2 ^ (n.log2 - bits) := by
        rw [← Nat.pow_add, Nat.sub_add_cancel exponent]
    _ ≤ ofNat bits n :=
      Nat.mul_le_mul_right _ (significand.trans (div_le_roundDiv _ _))

/-- Rounding keeps the order. -/
theorem ofNat_mono (bits : Nat) : Monotone (ofNat bits) := by
  intro n m order
  rcases (log2_mono order).eq_or_lt with same | more
  · rw [ofNat, ofNat, same]
    exact Nat.mul_le_mul_right _ (roundDiv_mono order)
  · have large : m ≠ 0 := by
      rintro rfl
      exact absurd more (by simp)
    have next : n ≤ 1 * 2 ^ (n.log2 + 1) := by
      rw [Nat.one_mul]
      exact Nat.lt_log2_self.le
    calc ofNat bits n ≤ 1 * 2 ^ (n.log2 + 1) := ofNat_le Nat.one_le_two_pow next
      _ = 2 ^ (n.log2 + 1) := Nat.one_mul _
      _ ≤ 2 ^ m.log2 := Nat.pow_le_pow_right Nat.zero_lt_two more
      _ ≤ ofNat bits m := two_pow_log2_le_ofNat large

/-- A quotient of at least `2 ^ bits` whose dividend is a small whole number is whole. -/
theorem dvd_of_large_quotient {bits a b : Nat} (positive : 0 < b) (bound : a ≤ 2 ^ (bits + 1))
    (large : b * 2 ^ bits ≤ a) : b ∣ a := by
  have few : b ≤ 2 := by
    have scaled : b * 2 ^ bits ≤ 2 * 2 ^ bits := by
      rw [← Nat.pow_succ']
      exact large.trans bound
    exact Nat.le_of_mul_le_mul_right scaled (Nat.two_pow_pos _)
  rcases (by omega : b = 1 ∨ b = 2) with rfl | rfl
  · exact Nat.one_dvd a
  · have exact_ : a = 2 * 2 ^ bits := Nat.le_antisymm (by rwa [← Nat.pow_succ']) large
    exact ⟨_, exact_⟩

/-- If a rounded quotient misses the exact one, the divisor is as large as the spacing of
the whole numbers in units of the last place. -/
theorem le_divisor_of_ceil_lt {a b c scale : Nat} (positive : 0 < b)
    (rounded : roundDiv (a * scale) b ≤ c * scale) (missed : c * b < a) : 2 * scale ≤ b := by
  have half := two_mul_le_of_roundDiv_le positive rounded
  have scaled : (c * b + 1) * scale ≤ a * scale := Nat.mul_le_mul_right _ missed
  have left : 2 * ((c * b + 1) * scale) = 2 * (c * b * scale) + 2 * scale := by ring
  have right : (2 * (c * scale) + 1) * b = 2 * (c * b * scale) + b := by ring
  omega

/-- A multiple of `unit` that is not below a number, divided by it again. -/
theorem le_roundUp_mul {unit : Nat} (positive : 0 < unit) (m : Nat) :
    m ≤ (m + unit - 1) / unit * unit := by
  have split := Nat.div_add_mod (m + unit - 1) unit
  have below := Nat.mod_lt (m + unit - 1) positive
  rw [Nat.mul_comm unit] at split
  omega

/-- A quotient with fraction bits, `unit` of which make a whole, is large enough when it is
rounded up. -/
theorem le_roundUp_roundDiv {bits exponent n parts unit : Nat} (positive : 0 < parts)
    (units : 2 ^ exponent * unit = 2 ^ bits) (bound : n ≤ 2 ^ (bits + 1))
    (digits : parts * 2 ^ exponent ≤ n) :
    n ≤ (roundDiv (n * unit) parts + unit - 1) / unit * parts := by
  have scale : 0 < unit := by
    refine Nat.pos_of_ne_zero fun zero => ?_
    rw [zero, Nat.mul_zero] at units
    exact (Nat.two_pow_pos bits).ne units
  have ceiling := le_roundUp_mul scale (roundDiv (n * unit) parts)
  generalize (roundDiv (n * unit) parts + unit - 1) / unit = chunk at ceiling
  by_contra missed
  have lower := le_divisor_of_ceil_lt positive ceiling (Nat.not_le.mp missed)
  have power : 2 ^ (bits + 1) = 2 * unit * 2 ^ exponent := by
    rw [Nat.pow_succ', ← units, Nat.mul_comm (2 ^ exponent), Nat.mul_assoc]
  have upper : parts ≤ 2 * unit := by
    refine Nat.le_of_mul_le_mul_right ?_ (Nat.two_pow_pos exponent)
    exact power ▸ digits.trans bound
  -- The divisor is then a power of two and the quotient is exact.
  obtain rfl : parts = 2 * unit := Nat.le_antisymm upper lower
  obtain rfl : n = 2 * unit * 2 ^ exponent := Nat.le_antisymm (power ▸ bound) digits
  have whole : 2 * unit * 2 ^ exponent * unit / (2 * unit) = 2 ^ exponent * unit := by
    rw [Nat.mul_assoc, Nat.mul_div_cancel_left _ positive]
  have quotient : 2 ^ exponent * unit ≤ chunk * unit := by
    rw [← whole]
    exact (div_le_roundDiv _ _).trans ceiling
  have enough := Nat.le_of_mul_le_mul_right quotient scale
  rw [Nat.mul_comm] at missed
  exact missed (Nat.mul_le_mul_right _ enough)

/-- Rounded up, the quotient of two whole numbers is large enough, if the dividend has no
more binary digits than a significand. -/
theorem le_ceilDiv_mul {bits n parts : Nat} (positive : 0 < parts) (bound : n ≤ 2 ^ (bits + 1)) :
    n ≤ ceilDiv bits (ofNat bits n) (ofNat bits parts) * parts := by
  have one : n ≤ parts → n ≤ min n 1 * parts := by
    intro small
    rcases Nat.eq_zero_or_pos n with rfl | filled
    · exact Nat.zero_le _
    · rwa [Nat.min_eq_right filled, Nat.one_mul]
  rw [ofNat_eq bound, ceilDiv]
  rcases Nat.lt_or_ge (2 ^ (bits + 1)) parts with many | few
  · rw [if_pos (bound.trans (two_pow_le_ofNat many.le))]
    exact one (bound.trans many.le)
  rw [ofNat_eq few]
  rcases Nat.lt_or_ge parts n with larger | small
  · have digits : parts * 2 ^ (n / parts).log2 ≤ n := by
      rw [Nat.mul_comm, ← Nat.le_div_iff_mul_le positive]
      exact Nat.log2_self_le (Nat.div_pos larger.le positive).ne'
    rw [if_neg (Nat.not_le.mpr larger)]
    generalize (n / parts).log2 = exponent at digits
    rcases Nat.lt_or_ge exponent bits with narrow | wide
    · have units : 2 ^ exponent * 2 ^ (bits - exponent) = 2 ^ bits := by
        rw [← Nat.pow_add, Nat.add_sub_cancel' narrow.le]
      simp only [if_neg (Nat.not_le.mpr narrow)]
      exact le_roundUp_roundDiv positive units bound digits
    · have unit : 0 < parts * 2 ^ (exponent - bits) := Nat.mul_pos positive (Nat.two_pow_pos _)
      have divides : parts * 2 ^ (exponent - bits) ∣ n := by
        refine dvd_of_large_quotient unit bound ?_
        rwa [Nat.mul_assoc, ← Nat.pow_add, Nat.sub_add_cancel wide]
      have whole := roundDiv_mul_cancel unit divides
      simp only [if_pos wide]
      rw [Nat.mul_assoc, Nat.mul_comm (2 ^ (exponent - bits)), whole]
  · rw [if_pos small]
    exact one small

/-- With one more digit than a significand, half of a number rounded up can be too small. -/
example : ceilDiv 23 (ofNat 23 (2 ^ 24 + 1)) (ofNat 23 2) = 2 ^ 23 := by decide +kernel

/-! ## Bit patterns -/

/-- The number that a bit pattern without a sign stands for, as a multiple of the smallest
positive number: a fraction, and behind the first exponent a leading one in front of it. -/
def units (bits pattern : Nat) : Nat :=
  if pattern / 2 ^ bits = 0 then pattern % 2 ^ bits
  else (2 ^ bits + pattern % 2 ^ bits) * 2 ^ (pattern / 2 ^ bits - 1)

/-- `x - y` for the bit patterns of `x` and of a number that is not greater. The exact
difference is a multiple of the smallest positive number again, and is rounded. -/
def sub (bits x y : Nat) : Nat := ofNat bits (units bits x - units bits y)

theorem units_eq {bits fraction : Nat} (bound : fraction < 2 ^ bits) (exponent : Nat) :
    units bits (2 ^ bits * exponent + fraction) =
      if exponent = 0 then fraction else (2 ^ bits + fraction) * 2 ^ (exponent - 1) := by
  have quotient : (2 ^ bits * exponent + fraction) / 2 ^ bits = exponent := by
    rw [Nat.mul_add_div (Nat.two_pow_pos bits), Nat.div_eq_of_lt bound, Nat.add_zero]
  have remainder : (2 ^ bits * exponent + fraction) % 2 ^ bits = fraction := by
    rw [Nat.mul_add_mod, Nat.mod_eq_of_lt bound]
  rw [units, quotient, remainder]

/-- The next bit pattern is a greater number. -/
theorem units_lt_succ (bits pattern : Nat) : units bits pattern < units bits (pattern + 1) := by
  have digits := Nat.two_pow_pos bits
  have bound := Nat.mod_lt pattern digits
  have split : pattern = 2 ^ bits * (pattern / 2 ^ bits) + pattern % 2 ^ bits :=
    (Nat.div_add_mod _ _).symm
  generalize pattern / 2 ^ bits = exponent at split
  generalize pattern % 2 ^ bits = fraction at split bound
  subst split
  rw [units_eq bound]
  rcases (Nat.succ_le_of_lt bound).lt_or_eq with inside | carry
  · rw [Nat.add_assoc, units_eq inside]
    split
    · exact Nat.lt_succ_self _
    · exact Nat.mul_lt_mul_of_pos_right (by omega) (Nat.two_pow_pos _)
  · have next : 2 ^ bits * exponent + fraction + 1 = 2 ^ bits * (exponent + 1) + 0 := by
      rw [Nat.mul_succ]
      omega
    rw [next, units_eq digits, if_neg (Nat.succ_ne_zero _), Nat.add_zero, Nat.add_sub_cancel]
    split
    case isTrue first =>
      rw [first, Nat.pow_zero, Nat.mul_one]
      exact bound
    case isFalse later =>
      obtain ⟨previous, rfl⟩ := Nat.exists_eq_succ_of_ne_zero later
      have power := Nat.two_pow_pos previous
      rw [Nat.succ_sub_one, Nat.pow_succ, Nat.mul_comm _ 2, ← Nat.mul_assoc]
      exact Nat.mul_lt_mul_of_pos_right (by omega) power

theorem units_strictMono (bits : Nat) : StrictMono (units bits) :=
  strictMono_nat_of_lt_succ (units_lt_succ bits)

/-- The difference to a smaller number is positive, however close the two are. -/
theorem sub_pos {bits x y : Nat} (less : y < x) : 0 < sub bits x y := by
  have exact_ : 0 < units bits x - units bits y := Nat.sub_pos_of_lt (units_strictMono bits less)
  rw [sub]
  rcases Nat.le_total (units bits x - units bits y) (2 ^ (bits + 1)) with small | large
  · rwa [ofNat_eq small]
  · exact (Nat.two_pow_pos _).trans_le (two_pow_le_ofNat large)

/-- The bit pattern of a whole number that is a float: the exponent of its leading one, counted
from `bias` on, and behind it the fraction. -/
def pattern (bits bias n : Nat) : Nat :=
  if n = 0 then 0 else 2 ^ bits * (n.log2 + bias) + (n * 2 ^ bits / 2 ^ n.log2 - 2 ^ bits)

/-- The fraction has `bits` digits. -/
theorem fraction_lt (bits n : Nat) : n * 2 ^ bits / 2 ^ n.log2 - 2 ^ bits < 2 ^ bits := by
  have unit := Nat.two_pow_pos bits
  have digits : n < 2 ^ n.log2 * 2 := Nat.lt_log2_self
  have below : n * 2 ^ bits / 2 ^ n.log2 < 2 * 2 ^ bits := by
    rw [Nat.div_lt_iff_lt_mul (Nat.two_pow_pos _)]
    calc n * 2 ^ bits < 2 ^ n.log2 * 2 * 2 ^ bits := Nat.mul_lt_mul_of_pos_right digits unit
      _ = 2 * 2 ^ bits * 2 ^ n.log2 := by ring
  omega

/-- Bit patterns are compared like their numbers. -/
theorem pattern_mono (bits bias : Nat) : Monotone (pattern bits bias) := by
  intro x y order
  rcases Nat.eq_zero_or_pos x with rfl | positive
  · exact Nat.zero_le _
  · have digits := log2_mono order
    rw [pattern, pattern, if_neg positive.ne', if_neg (positive.trans_le order).ne']
    rcases digits.eq_or_lt with same | more
    · rw [same]
      refine Nat.add_le_add_left (Nat.sub_le_sub_right ?_ _) _
      exact Nat.div_le_div_right (Nat.mul_le_mul_right _ order)
    · have fraction := fraction_lt bits x
      calc 2 ^ bits * (x.log2 + bias) + (x * 2 ^ bits / 2 ^ x.log2 - 2 ^ bits)
          ≤ 2 ^ bits * (x.log2 + 1 + bias) := by
            rw [Nat.add_right_comm, Nat.mul_succ]
            omega
        _ ≤ 2 ^ bits * (y.log2 + bias) := Nat.mul_le_mul_left _ (Nat.add_le_add_right more _)
        _ ≤ _ := Nat.le_add_right _ _

end Dolphin.BinaryFloat

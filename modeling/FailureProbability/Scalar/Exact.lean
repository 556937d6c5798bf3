import FailureProbability.Scalar
import Mathlib.Analysis.SpecialFunctions.Gamma.Basic
import Mathlib.Analysis.SpecialFunctions.Pow.Real

/-!
# Exact numbers

The real numbers, on which every algorithm of the library does what it does without rounding. All of
them are finite. The special functions are left open, so that what is stated of exact numbers
supposes nothing of them unless it says so; those that they stand for are one choice among others.

Operations that are undefined for some arguments have a value here as everywhere in real analysis: a
quotient by zero is zero, and so is the root of a number below zero, while the logarithm does not
see a sign. A statement that would depend on such a value says where it is defined. The bound of
what has no bound is a real number like any other, about which nothing is supposed.
-/

namespace FailureProbability

/-- The functions of exact numbers that are not elementary, and a bound for what has none yet. -/
class SpecialFunctions where
  infinity : ℝ
  erfc : ℝ → ℝ
  erfcInv : ℝ → ℝ
  gammaLower : ℝ → ℝ → ℝ
  gammaUpper : ℝ → ℝ → ℝ

namespace SpecialFunctions

/-- The complementary error function. -/
noncomputable def errorIntegral (x : ℝ) : ℝ :=
  2 / Real.sqrt Real.pi * ∫ t in Set.Ioi x, Real.exp (-(t * t))

/-- The share of the gamma function that is due to the arguments up to a bound. -/
noncomputable def gammaShare (a x : ℝ) : ℝ :=
  (∫ t in Set.Ioc 0 x, t ^ (a - 1) * Real.exp (-t)) / Real.Gamma a

noncomputable instance standard : SpecialFunctions where
  infinity := 0
  erfc := errorIntegral
  erfcInv := Function.invFun errorIntegral
  gammaLower := gammaShare
  gammaUpper a x := 1 - gammaShare a x

end SpecialFunctions

variable [SpecialFunctions]

noncomputable instance : Scalar ℝ where
  beq x y := decide (x = y)
  decLt := fun x y => inferInstanceAs (Decidable (x < y))
  decLe := fun x y => inferInstanceAs (Decidable (x ≤ y))
  ofNat n := n
  infinity := SpecialFunctions.infinity
  isFinite _ := true
  isNaN _ := false
  abs x := |x|
  sqrt := Real.sqrt
  exp := Real.exp
  log := Real.log
  log1p x := Real.log (1 + x)
  pow x y := x ^ y
  mulAdd x y z := x * y + z
  ceilNat x := ⌈x⌉₊
  erfc := SpecialFunctions.erfc
  erfcInv := SpecialFunctions.erfcInv
  gammaLower := SpecialFunctions.gammaLower
  gammaUpper := SpecialFunctions.gammaUpper

/-! ## Numbers of the library and real numbers

The numbers that the library writes are counts, and the arithmetic is that of its own class. -/

namespace Scalar

@[simp] theorem zero_eq : (@OfNat.ofNat ℝ 0 (Scalar.instOfNat 0)) = 0 := Nat.cast_zero

@[simp] theorem one_eq : (@OfNat.ofNat ℝ 1 (Scalar.instOfNat 1)) = 1 := Nat.cast_one

theorem two_eq : (@OfNat.ofNat ℝ 2 (Scalar.instOfNat 2)) = 2 := Nat.cast_ofNat

theorem half_eq : (@OfScientific.ofScientific ℝ Scalar.toOfScientific 5 true 1) = 2⁻¹ := by
  show (OfScientific.ofScientific 5 true 1 : ℝ) = 2⁻¹
  norm_num

theorem abs_eq (x : ℝ) : Scalar.abs x = |x| := rfl

theorem isFinite_eq (x : ℝ) : Scalar.isFinite x = true := rfl

theorem isNaN_ne (x : ℝ) : ¬Scalar.isNaN x = true := Bool.false_ne_true

theorem isPositive_eq (x : ℝ) : isPositive x = decide (0 < x) := by
  unfold isPositive
  rw [isFinite_eq, Bool.true_and, zero_eq]

/-! ## Extremes -/

theorem min_eq (a b : ℝ) : Scalar.min a b = a ⊓ b := by
  show (if b < a then b else a) = a ⊓ b
  split
  case isTrue h => exact (min_eq_right h.le).symm
  case isFalse h => exact (min_eq_left (not_lt.mp h)).symm

theorem max_eq (a b : ℝ) : Scalar.max a b = a ⊔ b := by
  show (if a < b then b else a) = a ⊔ b
  split
  case isTrue h => exact (max_eq_right h.le).symm
  case isFalse h => exact (max_eq_left (not_lt.mp h)).symm

/-- Within an interval that is not empty, the nearest number. -/
theorem clamp_eq {low high : ℝ} (h : low ≤ high) (x : ℝ) :
    Scalar.clamp x low high = low ⊔ x ⊓ high := by
  show (if x < low then low else if high < x then high else x) = low ⊔ x ⊓ high
  split
  case isTrue hlow => rw [min_eq_left (hlow.le.trans h), max_eq_left hlow.le]
  case isFalse hlow =>
    split
    case isTrue hhigh => rw [min_eq_right hhigh.le, max_eq_right h]
    case isFalse hhigh => rw [min_eq_left (not_lt.mp hhigh), max_eq_right (not_lt.mp hlow)]

theorem signum_one : Scalar.signum (1 : ℝ) = 1 := by
  have hzero : ((1 : ℝ) == 0) = false := decide_eq_false one_ne_zero
  unfold signum
  rw [if_neg (isNaN_ne 1), zero_eq, one_eq, if_neg (not_lt.mpr zero_le_one), hzero]
  rfl

theorem signum_neg_one : Scalar.signum (-1 : ℝ) = -1 := by
  unfold signum
  rw [if_neg (isNaN_ne (-1)), zero_eq, one_eq, if_pos (neg_lt_zero.mpr one_pos)]

end Scalar

end FailureProbability

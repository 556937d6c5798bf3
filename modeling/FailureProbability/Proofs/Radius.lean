import Mathlib
import FailureProbability.Proofs.Special.GammaShare
import FailureProbability.Radius

/-!
# The tails of the distance

What statements on directions suppose of the distance from the origin: that its tails are
probabilities, and that they fall and rise with the distance. Both hold of the incomplete gamma
functions as they are defined.

The two properties are kept apart, because no statement needs both: counting by the side of a ray
asks for probabilities, and comparing two policies for monotony. Neither says that the tails are
those of a chi-square distribution. A statement that depended on it would have to say which function
the gamma functions approximate.
-/

namespace FailureProbability.Radius

open Set

section

variable [SpecialFunctions]

/-- Both tails lie between zero and one. -/
structure IsProbability : Prop where
  exceedance_mem : ∀ (n : ℕ) (r : ℝ), (exceedance n r : ℝ) ∈ Icc 0 1
  nonExceedance_mem : ∀ (n : ℕ) (r : ℝ), (nonExceedance n r : ℝ) ∈ Icc 0 1

/-- The farther out, the less lies beyond, and the more lies before. -/
structure IsMonotone : Prop where
  exceedance_antitone : ∀ n : ℕ, Antitone fun r : ℝ => (exceedance n r : ℝ)
  nonExceedance_monotone : ∀ n : ℕ, Monotone fun r : ℝ => (nonExceedance n r : ℝ)

/-- On exact numbers no distance is infinite or undefined. -/
theorem exceedance_eq (n : ℕ) (r : ℝ) : (exceedance n r : ℝ) =
    if n = 0 then 0 else if r ≤ 0 then 1
    else SpecialFunctions.gammaUpper (2⁻¹ * n) (2⁻¹ * r * r) := by
  unfold exceedance
  simp only [Scalar.isNaN, Bool.false_eq_true, false_or, Scalar.isFinite_eq, if_true,
    Scalar.zero_eq, Scalar.one_eq, Scalar.half_eq]
  rfl

theorem nonExceedance_eq (n : ℕ) (r : ℝ) : (nonExceedance n r : ℝ) =
    if n = 0 then 1 else if r ≤ 0 then 0
    else SpecialFunctions.gammaLower (2⁻¹ * n) (2⁻¹ * r * r) := by
  unfold nonExceedance
  simp only [Scalar.isNaN, Bool.false_eq_true, false_or, Scalar.isFinite_eq, if_true,
    Scalar.zero_eq, Scalar.one_eq, Scalar.half_eq]
  rfl

end

/-! ## The tails as they are defined -/

section

open SpecialFunctions (gammaShare gammaShare_nonneg gammaShare_le_one gammaShare_mono)

/-- The two tails make up the whole. -/
theorem exceedance_standard (n : ℕ) (r : ℝ) : (exceedance n r : ℝ) = 1 - nonExceedance n r := by
  rw [exceedance_eq, nonExceedance_eq]
  split
  case isTrue => exact (sub_self 1).symm
  case isFalse =>
    split
    case isTrue => exact (sub_zero 1).symm
    case isFalse => rfl

theorem shape_pos {n : ℕ} (hn : n ≠ 0) : (0 : ℝ) < 2⁻¹ * n :=
  mul_pos (inv_pos.mpr two_pos) (Nat.cast_pos.mpr (Nat.pos_of_ne_zero hn))

theorem nonExceedance_standard_mem (n : ℕ) (r : ℝ) : (nonExceedance n r : ℝ) ∈ Icc 0 1 := by
  rw [nonExceedance_eq]
  split
  case isTrue => exact right_mem_Icc.mpr zero_le_one
  case isFalse hn =>
    split
    case isTrue => exact left_mem_Icc.mpr zero_le_one
    case isFalse => exact ⟨gammaShare_nonneg (shape_pos hn) _, gammaShare_le_one (shape_pos hn) _⟩

/-- A larger radius has no less probability within it, in every dimension. -/
theorem nonExceedance_standard_monotone (n : ℕ) :
    Monotone fun r : ℝ => (nonExceedance n r : ℝ) := by
  intro r s hrs
  show nonExceedance n r ≤ nonExceedance n s
  by_cases hn : n = 0
  · rw [nonExceedance_eq, nonExceedance_eq, if_pos hn, if_pos hn]
  by_cases hr : r ≤ 0
  · rw [nonExceedance_eq n r, if_neg hn, if_pos hr]
    exact (nonExceedance_standard_mem n s).1
  · have hs : ¬s ≤ 0 := fun h => hr (hrs.trans h)
    rw [nonExceedance_eq, nonExceedance_eq, if_neg hn, if_neg hn, if_neg hr, if_neg hs, mul_assoc,
      mul_assoc]
    refine gammaShare_mono (shape_pos hn) (mul_le_mul_of_nonneg_left ?_ (inv_pos.mpr two_pos).le)
    exact mul_self_le_mul_self (not_le.mp hr).le hrs

theorem isProbability_standard : IsProbability where
  exceedance_mem n r := by
    obtain ⟨hlow, hhigh⟩ := nonExceedance_standard_mem n r
    rw [exceedance_standard]
    exact ⟨sub_nonneg.mpr hhigh, sub_le_self 1 hlow⟩
  nonExceedance_mem := nonExceedance_standard_mem

theorem isMonotone_standard : IsMonotone where
  exceedance_antitone n r s hrs := by
    simp only [exceedance_standard]
    exact sub_le_sub_left (nonExceedance_standard_monotone n hrs) 1
  nonExceedance_monotone := nonExceedance_standard_monotone

end

end FailureProbability.Radius

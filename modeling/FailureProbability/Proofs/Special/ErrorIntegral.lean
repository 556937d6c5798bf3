import Mathlib
import FailureProbability.Proofs.Normal

/-!
# The error integral

The complementary error function as an integral has all that is supposed of it. It falls strictly,
since what lies between two bounds is positive; its values at a number and at its negative are the
two sides of the whole integral, which is two; and it takes all values between zero and two, as it
is continuous and tends to zero. Hence the standard functions of exact numbers give a normal
distribution and its quantile.

Statements on probabilities name these properties as hypotheses and do not refer to the integral. It
is here that the hypotheses are seen to hold of something, and of the function that is meant. How
the function is approximated in doubles is another matter, on which nothing is shown.
-/

namespace FailureProbability.SpecialFunctions

open MeasureTheory Set Filter Real

theorem integrable_bell : Integrable fun t : ℝ => exp (-(t * t)) := by
  have h := integrable_exp_neg_mul_sq one_pos
  simpa [pow_two] using h

theorem integral_bell : ∫ t : ℝ, exp (-(t * t)) = √π := by
  have h := integral_gaussian 1
  simpa [pow_two] using h

theorem intervalIntegrable_bell (a b : ℝ) :
    IntervalIntegrable (fun t : ℝ => exp (-(t * t))) volume a b :=
  integrable_bell.intervalIntegrable

theorem scale_pos : 0 < 2 / √π := div_pos two_pos (sqrt_pos.mpr pi_pos)

/-- Two values differ by what lies between the bounds. -/
theorem errorIntegral_sub (a b : ℝ) :
    errorIntegral a - errorIntegral b = 2 / √π * ∫ t in a..b, exp (-(t * t)) := by
  unfold errorIntegral
  rw [← mul_sub, intervalIntegral.integral_Ioi_sub_Ioi' integrable_bell.integrableOn
    integrable_bell.integrableOn]

theorem errorIntegral_strictAnti : StrictAnti errorIntegral := by
  intro a b hab
  rw [← sub_pos, errorIntegral_sub]
  exact mul_pos scale_pos (intervalIntegral.intervalIntegral_pos_of_pos (intervalIntegrable_bell a b)
    (fun t => exp_pos _) hab)

theorem errorIntegral_nonneg (x : ℝ) : 0 ≤ errorIntegral x :=
  mul_nonneg scale_pos.le (setIntegral_nonneg measurableSet_Ioi fun _ _ => (exp_pos _).le)

theorem errorIntegral_pos (x : ℝ) : 0 < errorIntegral x :=
  (errorIntegral_nonneg (x + 1)).trans_lt (errorIntegral_strictAnti (lt_add_one x))

/-- The two sides of a bound make up the whole integral. -/
theorem errorIntegral_neg (x : ℝ) : errorIntegral (-x) = 2 - errorIntegral x := by
  have hmirror : ∫ t in Ioi (-x), exp (-(t * t)) = ∫ t in Iic x, exp (-(t * t)) := by
    have h := integral_comp_neg_Ioi (-x) fun t => exp (-(t * t))
    simpa only [neg_mul_neg, neg_neg] using h
  have hwhole : (∫ t in Iic x, exp (-(t * t))) + ∫ t in Ioi x, exp (-(t * t)) = √π := by
    rw [intervalIntegral.integral_Iic_add_Ioi integrable_bell.integrableOn
      integrable_bell.integrableOn, integral_bell]
  have hroot : √π ≠ 0 := (sqrt_pos.mpr pi_pos).ne'
  unfold errorIntegral
  rw [hmirror, eq_sub_iff_add_eq.mpr hwhole, mul_sub, div_mul_cancel₀ _ hroot]

/-- The error integral from the value at zero. -/
theorem errorIntegral_eq_sub : errorIntegral =
    fun x => errorIntegral 0 - 2 / √π * ∫ t in (0 : ℝ)..x, exp (-(t * t)) := by
  funext x
  rw [← errorIntegral_sub, sub_sub_cancel]

theorem errorIntegral_continuous : Continuous errorIntegral := by
  rw [errorIntegral_eq_sub]
  exact continuous_const.sub (continuous_const.mul (integrable_bell.continuous_primitive 0))

/-- What lies beyond a bound vanishes as the bound grows. -/
theorem errorIntegral_tendsto : Tendsto errorIntegral atTop (nhds 0) := by
  have hpart : Tendsto (fun x : ℝ => ∫ t in (0 : ℝ)..x, exp (-(t * t))) atTop
      (nhds (∫ t in Ioi (0 : ℝ), exp (-(t * t)))) :=
    intervalIntegral_tendsto_integral_Ioi 0 integrable_bell.integrableOn tendsto_id
  have h := (hpart.const_mul (2 / √π)).const_sub (errorIntegral 0)
  rw [← errorIntegral_eq_sub] at h
  have hlimit : errorIntegral 0 - 2 / √π * ∫ t in Ioi (0 : ℝ), exp (-(t * t)) = 0 := by
    unfold errorIntegral
    exact sub_self _
  rwa [hlimit] at h

/-- Every number between zero and two is a value. -/
theorem errorIntegral_surjOn {y : ℝ} (hpos : 0 < y) (hlt : y < 2) : ∃ x, errorIntegral x = y := by
  have hsmall : ∀ z : ℝ, 0 < z → ∃ x, errorIntegral x ≤ z := fun z hz =>
    ((errorIntegral_tendsto.eventually_lt_const hz).exists).imp fun x hx => hx.le
  obtain ⟨b, hb⟩ := hsmall (2 - y) (sub_pos.mpr hlt)
  refine mem_range_of_exists_le_of_exists_ge errorIntegral_continuous (hsmall y hpos) ⟨-b, ?_⟩
  rw [errorIntegral_neg]
  linarith

theorem isErrorFunction : Normal.IsErrorFunction :=
  ⟨errorIntegral_strictAnti, errorIntegral_pos, errorIntegral_neg⟩

/-- The masses that go with the error integral are those of a distribution. -/
theorem isDistribution : Normal.IsDistribution :=
  Normal.isDistribution_of_isErrorFunction isErrorFunction

/-- Its inverse takes every mass back to an index. -/
theorem isQuantile : Normal.IsQuantile :=
  Normal.isQuantile_of_rightInverse isDistribution fun _ hpos hlt =>
    Function.invFun_eq (errorIntegral_surjOn hpos hlt)

end FailureProbability.SpecialFunctions

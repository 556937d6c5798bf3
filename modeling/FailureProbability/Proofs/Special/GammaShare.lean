import Mathlib
import FailureProbability.Scalar.Exact

/-!
# The share of the gamma function

As an integral of a positive function, the share that is due to the arguments up to a bound rises
with the bound, from nothing to the whole.

The shape is positive, as half of a dimension is; the bound may be any number, and below zero
nothing is due. This is all that the tails of a distance need (`Proofs.Radius`).
-/

namespace FailureProbability.SpecialFunctions

open MeasureTheory Set Real

variable {a : ℝ}

theorem integrableOn_gamma (ha : 0 < a) :
    IntegrableOn (fun t => t ^ (a - 1) * exp (-t)) (Ioi 0) := by
  have h := GammaIntegral_convergent ha
  simpa only [mul_comm] using h

theorem integral_gamma (ha : 0 < a) : ∫ t in Ioi (0 : ℝ), t ^ (a - 1) * exp (-t) = Gamma a := by
  rw [Gamma_eq_integral ha]
  simp only [mul_comm]

theorem gamma_integrand_nonneg {t : ℝ} (ht : 0 < t) : 0 ≤ t ^ (a - 1) * exp (-t) :=
  mul_nonneg (rpow_nonneg ht.le _) (exp_pos _).le

/-- What is due to some of the arguments is at most what is due to more of them. -/
theorem integral_gamma_mono (ha : 0 < a) {s t : Set ℝ} (hst : s ⊆ t) (ht : t ⊆ Ioi 0)
    (hmeasurable : MeasurableSet t) :
    ∫ x in s, x ^ (a - 1) * exp (-x) ≤ ∫ x in t, x ^ (a - 1) * exp (-x) := by
  refine setIntegral_mono_set ((integrableOn_gamma ha).mono_set ht) ?_ hst.eventuallyLE
  exact (ae_restrict_mem hmeasurable).mono fun x hx => gamma_integrand_nonneg (ht hx)

theorem gammaShare_nonneg (ha : 0 < a) (x : ℝ) : 0 ≤ gammaShare a x := by
  have hpart : 0 ≤ ∫ t in Ioc 0 x, t ^ (a - 1) * exp (-t) :=
    setIntegral_nonneg measurableSet_Ioc fun t ht => gamma_integrand_nonneg ht.1
  exact div_nonneg hpart (Gamma_pos_of_pos ha).le

theorem gammaShare_le_one (ha : 0 < a) (x : ℝ) : gammaShare a x ≤ 1 := by
  refine (div_le_one (Gamma_pos_of_pos ha)).mpr ?_
  rw [← integral_gamma ha]
  exact integral_gamma_mono ha Ioc_subset_Ioi_self subset_rfl measurableSet_Ioi

theorem gammaShare_mono (ha : 0 < a) : Monotone (gammaShare a) := by
  intro x y hxy
  refine div_le_div_of_nonneg_right ?_ (Gamma_pos_of_pos ha).le
  exact integral_gamma_mono ha (Ioc_subset_Ioc_right hxy) Ioc_subset_Ioi_self measurableSet_Ioc

end FailureProbability.SpecialFunctions

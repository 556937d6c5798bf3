import Mathlib
import FailureProbability.Normal
import FailureProbability.Scalar.Exact

/-!
# The normal distribution on exact numbers

Statements on probabilities suppose little of the normal distribution. `IsDistribution` is what they
need of the masses: that they rise strictly between zero and one and that both tails are alike.
`IsQuantile` is what they need of the index that belongs to a mass: that it undoes the tail between
the bounds of the index, and ends at these bounds.

Neither is supposed of the functions as they are written: where the complementary error function has
the first property and its inverse is one, both hold (`isQuantile_of_rightInverse`).

That there is such an error function is shown elsewhere (`Proofs.Special.ErrorIntegral`), so that no
theorem with these hypotheses is about nothing. Left out is how well the functions are approximated
by arithmetic that rounds: the Newton step that improves an index is exact here and improves
nothing.
-/

namespace FailureProbability.Normal

open Set

variable [SpecialFunctions]

/-- The mass up to a number rises strictly between zero and one, and is that beyond its negative. -/
structure IsDistribution : Prop where
  strictMono : StrictMono (cdf : ℝ → ℝ)
  pos : ∀ u : ℝ, 0 < (cdf u : ℝ)
  lt_one : ∀ u : ℝ, (cdf u : ℝ) < 1
  symm : ∀ u : ℝ, (cdf (-u) : ℝ) = 1 - cdf u

/-- The index of a mass undoes the tail on the range of indices, and ends at its bounds for masses
that no index of the range has. -/
structure IsQuantile : Prop where
  inverse : InvOn (betaFromQ : ℝ → ℝ) (fun beta => cdf (-beta)) (Icc (-betaMax) betaMax)
    (Icc (cdf (-betaMax)) (cdf betaMax))
  mapsTo : MapsTo (betaFromQ : ℝ → ℝ) (Icc (cdf (-betaMax)) (cdf betaMax)) (Icc (-betaMax) betaMax)
  below : ∀ q : ℝ, q < cdf (-betaMax) → betaFromQ q = betaMax
  above : ∀ q : ℝ, cdf betaMax < q → betaFromQ q = -betaMax

/-! ## The numbers of the module -/

theorem betaMax_eq : (betaMax : ℝ) = 40 := by
  show ((40 : ℕ) : ℝ) = 40
  norm_num

theorem neg_betaMax_le : (-betaMax : ℝ) ≤ betaMax := by
  rw [betaMax_eq]
  norm_num

theorem sqrtTwo_pos : (0 : ℝ) < sqrtTwo := by
  show (0 : ℝ) < OfScientific.ofScientific 14142135623730951 true 16
  norm_num

theorem cdf_eq (u : ℝ) : (cdf u : ℝ) = SpecialFunctions.erfc (-u / sqrtTwo) / 2 := by
  show OfScientific.ofScientific 5 true 1 * SpecialFunctions.erfc (-u / sqrtTwo) = _
  norm_num
  ring

theorem pdf_pos (u : ℝ) : 0 < (pdf u : ℝ) := Real.exp_pos _

/-! ## Tails -/

namespace IsDistribution

variable (h : IsDistribution)
include h

theorem tail_le_tail {a b : ℝ} : (cdf (-a) : ℝ) ≤ cdf (-b) ↔ b ≤ a := by
  rw [h.strictMono.le_iff_le, neg_le_neg_iff]

theorem tail_lt_tail {a b : ℝ} : (cdf (-a) : ℝ) < cdf (-b) ↔ b < a := by
  rw [h.strictMono.lt_iff_lt, neg_lt_neg_iff]

/-- Of two tails the smaller one begins at the larger index. -/
theorem tail_max (a b : ℝ) : (cdf (-(a ⊔ b)) : ℝ) = cdf (-a) ⊓ cdf (-b) := by
  rw [← min_neg_neg, h.strictMono.monotone.map_min]

/-- The mass up to a number is what its tail leaves. -/
theorem cdf_eq_one_sub (u : ℝ) : (cdf u : ℝ) = 1 - cdf (-u) := by
  rw [h.symm, sub_sub_cancel]

end IsDistribution

/-! ## Indices -/

namespace IsQuantile

variable (hindex : IsQuantile) {q beta : ℝ}
include hindex

/-- A mass is that of its index or lies beyond those of the range. -/
theorem cases (q : ℝ) : betaFromQ q ∈ Icc (-betaMax : ℝ) betaMax ∧ cdf (-(betaFromQ q : ℝ)) = q ∨
    q < cdf (-betaMax) ∧ betaFromQ q = betaMax ∨ cdf betaMax < q ∧ betaFromQ q = -betaMax := by
  by_cases hlow : q < cdf (-betaMax)
  · exact .inr (.inl ⟨hlow, hindex.below q hlow⟩)
  · by_cases hhigh : cdf betaMax < q
    · exact .inr (.inr ⟨hhigh, hindex.above q hhigh⟩)
    · have hq : q ∈ Icc (cdf (-betaMax) : ℝ) (cdf betaMax) := ⟨not_lt.mp hlow, not_lt.mp hhigh⟩
      exact .inl ⟨hindex.mapsTo hq, hindex.inverse.2 hq⟩

/-- No index lies beyond the bounds, whatever the mass. -/
theorem betaFromQ_mem (q : ℝ) : betaFromQ q ∈ Icc (-betaMax : ℝ) betaMax := by
  rcases hindex.cases q with ⟨hmem, -⟩ | ⟨-, hend⟩ | ⟨-, hend⟩
  · exact hmem
  · rw [hend]
    exact right_mem_Icc.mpr neg_betaMax_le
  · rw [hend]
    exact left_mem_Icc.mpr neg_betaMax_le

/-- A mass that is at least a tail has an index that is no larger. -/
theorem betaFromQ_le (h : IsDistribution) (hbeta : beta ∈ Icc (-betaMax : ℝ) betaMax)
    (hq : cdf (-beta) ≤ q) : betaFromQ q ≤ beta := by
  rcases hindex.cases q with ⟨-, hmass⟩ | ⟨hlow, -⟩ | ⟨-, hend⟩
  · rw [← h.tail_le_tail, hmass]
    exact hq
  · exact absurd (h.tail_lt_tail.mp (hq.trans_lt hlow)) (not_lt.mpr hbeta.2)
  · rw [hend]
    exact hbeta.1

theorem le_betaFromQ (h : IsDistribution) (hbeta : beta ∈ Icc (-betaMax : ℝ) betaMax)
    (hq : q ≤ cdf (-beta)) : beta ≤ betaFromQ q := by
  rcases hindex.cases q with ⟨-, hmass⟩ | ⟨-, hend⟩ | ⟨hhigh, -⟩
  · rw [← h.tail_le_tail, hmass]
    exact hq
  · rw [hend]
    exact hbeta.2
  · rw [← neg_neg betaMax] at hhigh
    exact absurd (h.tail_lt_tail.mp (hhigh.trans_le hq)) (not_lt.mpr hbeta.1)

/-- What an index at the lower end of the range leaves out of a mass. -/
theorem tail_betaFromQ_le (hq : cdf (-betaMax) ≤ q) : cdf (-(betaFromQ q : ℝ)) ≤ q := by
  rcases hindex.cases q with ⟨-, hmass⟩ | ⟨hlow, -⟩ | ⟨hhigh, hend⟩
  · exact hmass.le
  · exact absurd hlow (not_lt.mpr hq)
  · rw [hend, neg_neg]
    exact hhigh.le

end IsQuantile

/-! ## Error function and distribution -/

/-- The complementary error function falls strictly from two to zero, and its values at a number and
at its negative add up to two. -/
structure IsErrorFunction : Prop where
  strictAnti : StrictAnti (SpecialFunctions.erfc : ℝ → ℝ)
  pos : ∀ x : ℝ, 0 < SpecialFunctions.erfc x
  neg : ∀ x : ℝ, SpecialFunctions.erfc (-x) = 2 - SpecialFunctions.erfc x

/-- The masses are those of the error function, scaled. -/
theorem isDistribution_of_isErrorFunction (h : IsErrorFunction) : IsDistribution := by
  have hsymm : ∀ u : ℝ, (cdf (-u) : ℝ) = 1 - cdf u := by
    intro u
    rw [cdf_eq, cdf_eq, neg_div, h.neg]
    ring
  have hpos : ∀ u : ℝ, 0 < (cdf u : ℝ) := by
    intro u
    rw [cdf_eq]
    exact half_pos (h.pos _)
  refine ⟨fun a b hab => ?_, hpos, fun u => ?_, hsymm⟩
  · rw [cdf_eq, cdf_eq]
    have harg : -b / sqrtTwo < -a / sqrtTwo :=
      div_lt_div_of_pos_right (neg_lt_neg hab) sqrtTwo_pos
    exact div_lt_div_of_pos_right (h.strictAnti harg) two_pos
  · have hother := hpos (-u)
    rw [hsymm] at hother
    linarith

/-- Where the inverse of the error function is one, the Newton step has nothing to improve. -/
theorem betaOfTail_eq {q : ℝ}
    (hq : SpecialFunctions.erfc (SpecialFunctions.erfcInv (2 * q)) = 2 * q) :
    ∃ beta : ℝ, cdf (-beta) = q ∧ betaOfTail q = Scalar.clamp beta (-betaMax) betaMax := by
  have hmass : (cdf (-(sqrtTwo * SpecialFunctions.erfcInv (2 * q))) : ℝ) = q := by
    rw [cdf_eq, neg_neg, mul_div_cancel_left₀ _ sqrtTwo_pos.ne', hq]
    ring
  refine ⟨sqrtTwo * SpecialFunctions.erfcInv (2 * q), hmass, ?_⟩
  unfold betaOfTail
  rw [Scalar.zero_eq]
  dsimp only
  rw [if_pos ⟨pdf_pos _, Scalar.isFinite_eq _⟩]
  show Scalar.clamp (sqrtTwo * SpecialFunctions.erfcInv (2 * q) +
    (cdf (-(sqrtTwo * SpecialFunctions.erfcInv (2 * q))) - q) /
      pdf (sqrtTwo * SpecialFunctions.erfcInv (2 * q))) (-betaMax) betaMax = _
  rw [hmass, sub_self, zero_div, add_zero]

/-- The index of a mass between zero and one is the one whose tail has this mass, cut to the
range. -/
theorem betaFromQ_eq (h : IsDistribution)
    (hinv : ∀ y : ℝ, 0 < y → y < 2 → SpecialFunctions.erfc (SpecialFunctions.erfcInv y) = y)
    {q : ℝ} (hpos : 0 < q) (hlt : q < 1) :
    ∃ beta : ℝ, cdf (-beta) = q ∧ betaFromQ q = -betaMax ⊔ beta ⊓ betaMax := by
  have hhalf : ((OfScientific.ofScientific 5 true 1 : ℝ)) = 1 / 2 := by norm_num
  have hunfold : (betaFromQ q : ℝ) = if 1 / 2 < q then -betaOfTail (1 - q) else betaOfTail q := by
    unfold betaFromQ
    rw [if_neg (Scalar.isNaN_ne q), Scalar.zero_eq, Scalar.one_eq, if_neg (not_le.mpr hpos),
      if_neg (not_le.mpr hlt), hhalf]
  rw [hunfold]
  by_cases hq : 1 / 2 < q
  · rw [if_pos hq]
    obtain ⟨beta, hmass, hbeta⟩ := betaOfTail_eq (hinv (2 * (1 - q)) (by linarith) (by linarith))
    refine ⟨-beta, ?_, ?_⟩
    · rw [neg_neg, h.cdf_eq_one_sub, hmass, sub_sub_cancel]
    · rw [hbeta, Scalar.clamp_eq neg_betaMax_le, ← min_neg_neg, neg_neg, ← max_neg_neg,
        max_min_distrib_left, max_eq_right neg_betaMax_le, min_comm, max_comm]
  · rw [if_neg hq]
    obtain ⟨beta, hmass, hbeta⟩ := betaOfTail_eq (hinv (2 * q) (by linarith) (by linarith))
    exact ⟨beta, hmass, by rw [hbeta, Scalar.clamp_eq neg_betaMax_le]⟩

/-- The index is a quantile where the inverse of the error function is one. -/
theorem isQuantile_of_rightInverse (h : IsDistribution)
    (hinv : ∀ y : ℝ, 0 < y → y < 2 → SpecialFunctions.erfc (SpecialFunctions.erfcInv y) = y) :
    IsQuantile := by
  -- A mass on the range is that of an index on the range, which is not cut.
  have hwithin : ∀ q : ℝ, q ∈ Icc (cdf (-betaMax) : ℝ) (cdf betaMax) →
      betaFromQ q ∈ Icc (-betaMax : ℝ) betaMax ∧ cdf (-(betaFromQ q : ℝ)) = q := by
    rintro q ⟨hlow, hhigh⟩
    obtain ⟨beta, hmass, hbeta⟩ := betaFromQ_eq h hinv ((h.pos _).trans_le hlow)
      (hhigh.trans_lt (h.lt_one _))
    have hle : beta ≤ betaMax := by
      rw [← h.tail_le_tail, hmass]
      exact hlow
    have hge : -betaMax ≤ beta := by
      rw [← h.tail_le_tail, hmass, neg_neg]
      exact hhigh
    rw [hbeta, min_eq_left hle, max_eq_right hge]
    exact ⟨⟨hge, hle⟩, hmass⟩
  refine ⟨⟨fun beta hbeta => ?_, fun q hq => (hwithin q hq).2⟩, fun q hq => (hwithin q hq).1,
    fun q hq => ?_, fun q hq => ?_⟩
  · have hmem : (cdf (-beta) : ℝ) ∈ Icc (cdf (-betaMax) : ℝ) (cdf betaMax) := by
      refine ⟨h.tail_le_tail.mpr hbeta.2, ?_⟩
      rw [← neg_neg betaMax]
      exact h.tail_le_tail.mpr hbeta.1
    exact neg_injective (h.strictMono.injective (hwithin _ hmem).2)
  · by_cases hpos : 0 < q
    · obtain ⟨beta, hmass, hbeta⟩ := betaFromQ_eq h hinv hpos (hq.trans (h.lt_one _))
      rw [← hmass, h.tail_lt_tail] at hq
      rw [hbeta, min_eq_right hq.le, max_eq_right neg_betaMax_le]
    · unfold betaFromQ
      rw [if_neg (Scalar.isNaN_ne q), Scalar.zero_eq, if_pos (not_lt.mp hpos)]
  · by_cases hlt : q < 1
    · obtain ⟨beta, hmass, hbeta⟩ := betaFromQ_eq h hinv ((h.pos _).trans hq) hlt
      rw [← hmass, ← neg_neg betaMax, h.tail_lt_tail] at hq
      rw [hbeta, max_eq_left ((min_le_left _ _).trans hq.le)]
    · have hpos : ¬q ≤ 0 := not_le.mpr (zero_lt_one.trans_le (not_lt.mp hlt))
      unfold betaFromQ
      rw [if_neg (Scalar.isNaN_ne q), Scalar.zero_eq, Scalar.one_eq, if_neg hpos,
        if_pos (not_lt.mp hlt)]

end FailureProbability.Normal

import Mathlib
import FailureProbability.Combination
import FailureProbability.Proofs.Form
import FailureProbability.Proofs.Special.ErrorIntegral

/-!
# The probability of a combination

Two events with given probabilities occur together with a probability between none and the smaller
of theirs, and one of them with a probability between the larger of theirs and their sum. The
library stays within these bounds on exact numbers whatever the first-order method finds, as that is
a probability and the rest is cut to the bounds. Without correlation and with a full one no
approximation is left: the events are independent there, or one tells of the other.

The normal distribution is any function that `IsDistribution` allows. Of the search behind a
conditional probability only one thing is used: the failure probability of an estimate is a mass,
also of one that has not converged. How near it is to the probability that it stands for is not
stated, and no bound here would show a search that goes astray.

Indices are real numbers and hence finite; the error for indices that are not is met by no event
here. Correlations beyond one, which a tolerance admits, are left out.
-/

namespace FailureProbability

open FailureProbability.Normal

section

variable [SpecialFunctions]

namespace Conditional

variable {c : Config ℝ} {beta1 beta2 rho : ℝ} {p : Probability ℝ}

/-! ## Configurations -/

/-- The limits of an accepted configuration. -/
theorem limits_of_validate (hc : c.validate = .ok ()) :
    0 ≤ c.rhoZero ∧ c.rhoZero < c.rhoLimit ∧ c.rhoLimit < 1 := by
  unfold Config.validate at hc
  rw [Scalar.zero_eq, Scalar.one_eq] at hc
  by_contra hlimits
  rw [if_pos hlimits] at hc
  cases hc

/-- The standard settings are accepted on exact numbers. -/
theorem validate_standard : (Config.standard : Config ℝ).validate = .ok () := by
  have hform : (Config.standard : Config ℝ).form.validate = .ok () := by
    refine Form.Config.validate_iff.mpr
      ⟨Nat.succ_ne_zero 49, ?_, ⟨?_, ?_, ?_⟩, Nat.succ_ne_zero 3⟩
    · rw [Scalar.zero_eq]
      exact ⟨Nat.cast_pos.mpr one_pos, le_rfl⟩
    all_goals
      rw [Scalar.isPositive_eq, decide_eq_true_iff]
      norm_num [Config.standard]
  have hlimits : (0 : ℝ) ≤ Config.standard.rhoZero ∧
      (Config.standard.rhoZero : ℝ) < Config.standard.rhoLimit ∧
      (Config.standard.rhoLimit : ℝ) < 1 := by
    norm_num [Config.standard]
  unfold Config.validate
  rw [Scalar.zero_eq, Scalar.one_eq, hform, if_neg (not_not.mpr hlimits)]

/-! ## Exact masses -/

/-- Whichever tails it is evaluated from, the mass between two bounds is the increase of the
mass. -/
theorem massBetween_eq (h : IsDistribution) (a b : ℝ) : massBetween a b = 0 ⊔ (cdf b - cdf a) := by
  unfold massBetween
  rw [Scalar.zero_eq, Scalar.one_eq]
  by_cases hempty : b ≤ a
  · rw [if_pos hempty, max_eq_left (sub_nonpos.mpr (h.strictMono.monotone hempty))]
  · have hmass : (0 : ℝ) ≤ cdf b - cdf a := sub_nonneg.mpr (h.strictMono.monotone (not_le.mp hempty).le)
    rw [if_neg hempty, max_eq_right hmass]
    split
    · show (cdf (-a) - cdf (-b) : ℝ) = _
      rw [h.symm, h.symm]
      ring
    · split
      · rfl
      · show (1 - cdf a - cdf (-b) : ℝ) = _
        rw [h.symm]
        ring

/-- Of two events that are one and the same variable beyond two bounds, both occur beyond the
larger. -/
theorem tail_mul_fullyCorrelated_one (h : IsDistribution) (beta1 beta2 : ℝ) :
    cdf (-beta1) * fullyCorrelated beta1 beta2 1 = (cdf (-beta1) ⊓ cdf (-beta2) : ℝ) := by
  unfold fullyCorrelated
  rw [Scalar.zero_eq, if_pos one_pos, Scalar.max_eq]
  show cdf (-beta1) * (cdf (-(beta1 ⊔ beta2)) / cdf (-beta1)) = _
  rw [mul_div_cancel₀ _ (h.pos _).ne', h.tail_max]

/-- Of two events on the two sides of one variable, both occur where the sides overlap. -/
theorem tail_mul_fullyCorrelated_neg_one (h : IsDistribution) (beta1 beta2 : ℝ) :
    cdf (-beta1) * fullyCorrelated beta1 beta2 (-1) =
      (0 ⊔ (cdf (-beta1) + cdf (-beta2) - 1) : ℝ) := by
  unfold fullyCorrelated
  rw [Scalar.zero_eq, if_neg (by norm_num), massBetween_eq h]
  show cdf (-beta1) * ((0 ⊔ (cdf (-beta2) - cdf beta1)) / cdf (-beta1)) = _
  rw [mul_div_cancel₀ _ (h.pos _).ne', h.cdf_eq_one_sub beta1]
  ring_nf

/-! ## What a conditional probability can be -/

/-- Whatever becomes of the search for a design point, its probability is a mass. -/
theorem exists_of_solve {q1 : ℝ} (hp : solve c q1 beta2 rho = .ok p) :
    ∃ beta : ℝ, p.probability = cdf (-beta) := by
  unfold solve at hp
  obtain ⟨setup, -, hp⟩ := bind_eq_ok.mp hp
  obtain ⟨_, -, hp⟩ := bind_eq_ok.mp hp
  obtain ⟨e, -, hp⟩ := bind_eq_ok.mp hp
  cases hp
  exact ⟨e.direction.beta, rfl⟩

/-- A conditional probability is that of the second event alone, or one that was found by the
search, or one between such a probability and the exact one. -/
theorem probability_cases (h : IsDistribution) (hp : probability c beta1 beta2 rho = .ok p) :
    |rho| < c.rhoZero ∧ p.probability = cdf (-beta2) ∨
    ¬|rho| < c.rhoZero ∧ c.rhoLimit < |rho| ∧ (∃ found : ℝ, p.probability =
      Scalar.clamp (found + ((|rho| - c.rhoLimit) / (1 - c.rhoLimit) ⊓ 1) *
        (fullyCorrelated beta1 beta2 (Scalar.signum rho) - found)) 0 1) ∨
    ¬|rho| < c.rhoZero ∧ |rho| ≤ c.rhoLimit ∧ ∃ beta : ℝ, p.probability = cdf (-beta) := by
  unfold probability at hp
  rw [Scalar.zero_eq, Scalar.one_eq, Scalar.abs_eq] at hp
  split at hp
  · cases hp
  · split at hp
    · cases hp
    · dsimp only at hp
      have hq1 : ¬(cdf (-beta1) : ℝ) ≤ 0 := not_le.mpr (h.pos _)
      by_cases hzero : |rho| < c.rhoZero
      · rw [if_pos (.inl hzero)] at hp
        cases hp
        exact .inl ⟨hzero, rfl⟩
      · rw [if_neg (not_or.mpr ⟨hzero, hq1⟩)] at hp
        by_cases hlimit : c.rhoLimit < |rho|
        · rw [if_pos hlimit] at hp
          obtain ⟨atLimit, -, hp⟩ := bind_eq_ok.mp hp
          cases hp
          refine .inr (.inl ⟨hzero, hlimit, atLimit.probability, ?_⟩)
          rw [Scalar.min_eq]
        · rw [if_neg hlimit] at hp
          exact .inr (.inr ⟨hzero, not_lt.mp hlimit, exists_of_solve hp⟩)

/-- A mass, or a number that was cut to the unit interval. -/
theorem probability_nonneg (h : IsDistribution) (hp : probability c beta1 beta2 rho = .ok p) :
    0 ≤ p.probability := by
  rcases probability_cases h hp with ⟨-, hmass⟩ | ⟨-, -, found, hcut⟩ | ⟨-, -, beta, hmass⟩
  · rw [hmass]
    exact (h.pos _).le
  · rw [hcut, Scalar.clamp_eq zero_le_one]
    exact le_max_left _ _
  · rw [hmass]
    exact (h.pos _).le

/-- With a full correlation the interpolation has reached the exact probability, which is none that
would be cut. -/
theorem tail_mul_probability_of_full (h : IsDistribution) (hc : c.validate = .ok ())
    (hfull : |rho| = 1) (hsign : Scalar.signum rho = rho) {both : ℝ}
    (hboth : cdf (-beta1) * fullyCorrelated beta1 beta2 rho = both) (hnonneg : 0 ≤ both)
    (hle : both ≤ cdf (-beta1)) (hp : probability c beta1 beta2 rho = .ok p) :
    cdf (-beta1) * p.probability = both := by
  obtain ⟨-, hzero, hlimit⟩ := limits_of_validate hc
  rcases probability_cases h hp with ⟨hsmall, -⟩ | ⟨-, -, found, hcut⟩ | ⟨-, hsmall, -⟩
  · rw [hfull] at hsmall
    exact absurd (hzero.trans hlimit) (not_lt.mpr hsmall.le)
  · have hexact : 0 ≤ fullyCorrelated beta1 beta2 rho ∧ fullyCorrelated beta1 beta2 rho ≤ 1 := by
      rw [← hboth] at hnonneg hle
      exact ⟨(mul_nonneg_iff_of_pos_left (h.pos _)).mp hnonneg,
        (mul_le_iff_le_one_right (h.pos _)).mp hle⟩
    rw [hcut, hfull, hsign, div_self (sub_pos.mpr hlimit).ne', min_self, one_mul, add_sub_cancel,
      Scalar.clamp_eq zero_le_one, min_eq_left hexact.2, max_eq_right hexact.1, hboth]
  · rw [hfull] at hsmall
    exact absurd hlimit (not_lt.mpr hsmall)

/-- Correlations are accepted, and so are indices, which are all finite. -/
theorem probability_of_abs_le_one (hrho : |rho| ≤ 1) :
    probability c beta1 beta2 rho =
      if |rho| < c.rhoZero ∨ cdf (-beta1) ≤ (0 : ℝ) then .ok ⟨cdf (-beta2), true, 0⟩
      else if c.rhoLimit < |rho| then do
        let atLimit ← solve c (cdf (-beta1)) beta2 (Scalar.signum rho * c.rhoLimit)
        let t := Scalar.min ((|rho| - c.rhoLimit) / (1 - c.rhoLimit)) 1
        let exact := fullyCorrelated beta1 beta2 (Scalar.signum rho)
        let p := atLimit.probability + t * (exact - atLimit.probability)
        return { atLimit with probability := Scalar.clamp p 0 1 }
      else solve c (cdf (-beta1)) beta2 rho := by
  have htolerance : ¬1 + (OfScientific.ofScientific 1 true 10 : ℝ) < |rho| := by
    have hpos : (0 : ℝ) < OfScientific.ofScientific 1 true 10 := by norm_num
    linarith
  unfold probability
  rw [Scalar.zero_eq, Scalar.one_eq, Scalar.abs_eq, if_neg, if_neg]
  · rintro (hfinite | hlarge)
    · cases hfinite
    · exact htolerance hlarge
  · rintro (hfinite | hfinite) <;> cases hfinite

/-- Events that are not correlated are independent, and their probability is always found. -/
theorem probability_of_uncorrelated (hrho : |rho| ≤ 1) (hzero : |rho| < c.rhoZero) :
    ∃ p, probability c beta1 beta2 rho = .ok p ∧ p.probability = cdf (-beta2) :=
  ⟨_, (probability_of_abs_le_one hrho).trans (if_pos (.inl hzero)), rfl⟩

end Conditional

namespace Combination

variable {c : Conditional.Config ℝ} {betaA betaB rho both : ℝ} {rule : Rule} {q : ℝ}

/-! ## Both events -/

/-- The condition is one of the two events, and what follows from it is cut to the smaller
probability. -/
theorem joint_cases (hboth : joint c betaA betaB rho = .ok both) : ∃ x y p,
    (x = betaA ∧ y = betaB ∨ x = betaB ∧ y = betaA) ∧ Conditional.probability c x y rho = .ok p ∧
      both = cdf (-x) * p.probability ⊓ (cdf (-betaA) ⊓ cdf (-betaB)) := by
  unfold joint at hboth
  dsimp only at hboth
  split at hboth
  · rcases hgiven : Conditional.probability c betaA betaB rho with e | p <;> rw [hgiven] at hboth
    · cases hboth
    · cases hboth
      refine ⟨betaA, betaB, p, .inl ⟨rfl, rfl⟩, hgiven, ?_⟩
      rw [Scalar.min_eq, Scalar.min_eq]
  · rcases hgiven : Conditional.probability c betaB betaA rho with e | p <;> rw [hgiven] at hboth
    · cases hboth
    · cases hboth
      refine ⟨betaB, betaA, p, .inr ⟨rfl, rfl⟩, hgiven, ?_⟩
      rw [Scalar.min_eq, Scalar.min_eq]

theorem joint_nonneg (h : IsDistribution) (hboth : joint c betaA betaB rho = .ok both) : 0 ≤ both := by
  obtain ⟨x, y, p, -, hp, rfl⟩ := joint_cases hboth
  exact le_min (mul_nonneg (h.pos _).le (Conditional.probability_nonneg h hp))
    (le_min (h.pos _).le (h.pos _).le)

theorem joint_le (hboth : joint c betaA betaB rho = .ok both) :
    both ≤ cdf (-betaA) ⊓ cdf (-betaB) := by
  obtain ⟨x, y, p, -, -, rfl⟩ := joint_cases hboth
  exact min_le_right _ _

/-- Where one event implies the other, both occur with the one that is less probable. -/
theorem joint_of_one (h : IsDistribution) (hc : c.validate = .ok ())
    (hboth : joint c betaA betaB 1 = .ok both) : both = cdf (-betaA) ⊓ cdf (-betaB) := by
  obtain ⟨x, y, p, hxy, hp, rfl⟩ := joint_cases hboth
  rw [Conditional.tail_mul_probability_of_full h hc abs_one Scalar.signum_one
    (Conditional.tail_mul_fullyCorrelated_one h x y) (le_min (h.pos _).le (h.pos _).le)
    (min_le_left _ _) hp]
  rcases hxy with ⟨rfl, rfl⟩ | ⟨rfl, rfl⟩
  · exact min_self _
  · rw [min_comm (cdf (-x) : ℝ), min_self]

/-- Where the events exclude each other as far as they can, only their overlap is left. -/
theorem joint_of_neg_one (h : IsDistribution) (hc : c.validate = .ok ())
    (hboth : joint c betaA betaB (-1) = .ok both) :
    both = 0 ⊔ (cdf (-betaA) + cdf (-betaB) - 1) := by
  obtain ⟨x, y, p, hxy, hp, rfl⟩ := joint_cases hboth
  have hx := h.lt_one (-x)
  have hy := h.lt_one (-y)
  have hoverlap (z : ℝ) (hz : z = x ∨ z = y) :
      0 ⊔ (cdf (-x) + cdf (-y) - 1) ≤ (cdf (-z) : ℝ) := by
    refine max_le (h.pos _).le ?_
    rcases hz with rfl | rfl <;> linarith
  rw [Conditional.tail_mul_probability_of_full h hc (by rw [abs_neg, abs_one]) Scalar.signum_neg_one
    (Conditional.tail_mul_fullyCorrelated_neg_one h x y) (le_max_left _ _) (hoverlap x (.inl rfl)) hp]
  rcases hxy with ⟨rfl, rfl⟩ | ⟨rfl, rfl⟩
  · exact min_eq_left (le_min (hoverlap x (.inl rfl)) (hoverlap y (.inr rfl)))
  · rw [add_comm (cdf (-y) : ℝ)]
    exact min_eq_left (le_min (hoverlap y (.inr rfl)) (hoverlap x (.inl rfl)))

/-- Without correlation the product of the probabilities is below both of them, so that it is not
cut. -/
theorem joint_of_uncorrelated (h : IsDistribution) (hrho : |rho| ≤ 1) (hzero : |rho| < c.rhoZero) :
    joint c betaA betaB rho = .ok (cdf (-betaA) * cdf (-betaB)) := by
  have hproduct : (cdf (-betaA) * cdf (-betaB) : ℝ) ⊓ (cdf (-betaA) ⊓ cdf (-betaB)) =
      cdf (-betaA) * cdf (-betaB) :=
    min_eq_left (le_min (mul_le_of_le_one_right (h.pos _).le (h.lt_one _).le)
      (mul_le_of_le_one_left (h.pos _).le (h.lt_one _).le))
  have hgiven (x y : ℝ) : ∃ p, Conditional.probability c x y rho = .ok p ∧ p.probability = cdf (-y) :=
    Conditional.probability_of_uncorrelated hrho hzero
  unfold joint
  dsimp only
  split
  · obtain ⟨p, hp, hmass⟩ := hgiven betaA betaB
    rw [hp, ← hproduct, ← Scalar.min_eq, ← Scalar.min_eq, ← hmass]
    rfl
  · obtain ⟨p, hp, hmass⟩ := hgiven betaB betaA
    rw [hp, ← hproduct, ← Scalar.min_eq, ← Scalar.min_eq, mul_comm, ← hmass]
    rfl

/-! ## The combination -/

theorem probability_and : probability c .and betaA betaB rho = joint c betaA betaB rho :=
  bind_pure _

/-- That at least one occurs has the probability of both together less that of both at once. What is
cut is only what exceeds one, since both at once are no more probable than either. -/
theorem probability_or_eq_ok (h : IsDistribution) : probability c .or betaA betaB rho = .ok q ↔
    ∃ both, joint c betaA betaB rho = .ok both ∧
      q = (cdf (-betaA) + cdf (-betaB) - both) ⊓ 1 := by
  unfold probability
  rw [bind_eq_ok]
  refine exists_congr fun both => and_congr_right fun hboth => ?_
  have hle := joint_le hboth
  have hhigh : (cdf (-betaA) ⊔ cdf (-betaB) : ℝ) ≤ 1 := max_le (h.lt_one _).le (h.lt_one _).le
  have hlow : (cdf (-betaA) ⊔ cdf (-betaB) : ℝ) ≤ (cdf (-betaA) + cdf (-betaB) - both) ⊓ 1 := by
    rw [← max_add_min (cdf (-betaA) : ℝ), add_sub_assoc]
    exact le_min (le_add_of_nonneg_right (sub_nonneg.mpr hle)) hhigh
  show Except.ok (Scalar.clamp _ (Scalar.max _ _) _) = Except.ok q ↔ _
  rw [Scalar.one_eq, Scalar.max_eq, Scalar.clamp_eq hhigh, max_eq_right hlow, Except.ok.injEq, eq_comm]

/-- One of two events occurs whenever either does. -/
theorem max_le_probability_or (h : IsDistribution) (hq : probability c .or betaA betaB rho = .ok q) :
    (cdf (-betaA) ⊔ cdf (-betaB) : ℝ) ≤ q := by
  obtain ⟨both, hboth, rfl⟩ := (probability_or_eq_ok h).mp hq
  rw [← max_add_min (cdf (-betaA) : ℝ), add_sub_assoc]
  exact le_min (le_add_of_nonneg_right (sub_nonneg.mpr (joint_le hboth)))
    (max_le (h.lt_one _).le (h.lt_one _).le)

theorem probability_or_le (h : IsDistribution) (hq : probability c .or betaA betaB rho = .ok q) :
    q ≤ (1 ⊓ (cdf (-betaA) + cdf (-betaB)) : ℝ) := by
  obtain ⟨both, hboth, rfl⟩ := (probability_or_eq_ok h).mp hq
  rw [min_comm]
  exact min_le_min_left _ (sub_le_self _ (joint_nonneg h hboth))

/-- Where one event implies the other, the more probable one occurs whenever any does. -/
theorem probability_or_of_one (h : IsDistribution) (hc : c.validate = .ok ())
    (hq : probability c .or betaA betaB 1 = .ok q) : q = cdf (-betaA) ⊔ cdf (-betaB) := by
  obtain ⟨both, hboth, rfl⟩ := (probability_or_eq_ok h).mp hq
  rw [joint_of_one h hc hboth, ← max_add_min (cdf (-betaA) : ℝ), add_sub_cancel_right]
  exact min_eq_left (max_le (h.lt_one _).le (h.lt_one _).le)

/-- Where the events exclude each other as far as they can, their probabilities add up until one of
them is certain to occur. -/
theorem probability_or_of_neg_one (h : IsDistribution) (hc : c.validate = .ok ())
    (hq : probability c .or betaA betaB (-1) = .ok q) :
    q = 1 ⊓ (cdf (-betaA) + cdf (-betaB)) := by
  obtain ⟨both, hboth, rfl⟩ := (probability_or_eq_ok h).mp hq
  rw [joint_of_neg_one h hc hboth]
  rcases le_total (cdf (-betaA) + cdf (-betaB) : ℝ) 1 with hsum | hsum
  · rw [max_eq_left (sub_nonpos.mpr hsum), sub_zero, min_comm]
  · rw [max_eq_right (sub_nonneg.mpr hsum), sub_sub_cancel, min_self, min_eq_left hsum]

theorem probability_or_of_uncorrelated (h : IsDistribution) (hrho : |rho| ≤ 1)
    (hzero : |rho| < c.rhoZero) (hq : probability c .or betaA betaB rho = .ok q) :
    q = cdf (-betaA) + cdf (-betaB) - cdf (-betaA) * cdf (-betaB) := by
  obtain ⟨both, hboth, rfl⟩ := (probability_or_eq_ok h).mp hq
  rw [joint_of_uncorrelated h hrho hzero, Except.ok.injEq] at hboth
  have hneither : (0 : ℝ) ≤ (1 - cdf (-betaA)) * (1 - cdf (-betaB)) :=
    mul_nonneg (sub_nonneg.mpr (h.lt_one _).le) (sub_nonneg.mpr (h.lt_one _).le)
  rw [← hboth, min_eq_left]
  linarith

/-- Both events at once and at least one of them have together the probabilities of the two, unless
these exceed what a certain event allows. -/
theorem and_add_or (h : IsDistribution) (hand : probability c .and betaA betaB rho = .ok both)
    (hor : probability c .or betaA betaB rho = .ok q) :
    both + q = (cdf (-betaA) + cdf (-betaB)) ⊓ (1 + both) := by
  obtain ⟨both', hboth', rfl⟩ := (probability_or_eq_ok h).mp hor
  rw [← probability_and, hand, Except.ok.injEq] at hboth'
  rw [← hboth', ← min_add_add_left, add_sub_cancel, add_comm both 1]

/-- Both combinations ask for the same conditional probability. -/
theorem exists_and_iff_exists_or (h : IsDistribution) :
    (∃ both, probability c .and betaA betaB rho = .ok both) ↔
      ∃ either, probability c .or betaA betaB rho = .ok either := by
  constructor
  · rintro ⟨both, hboth⟩
    exact ⟨_, (probability_or_eq_ok h).mpr ⟨both, probability_and.symm.trans hboth, rfl⟩⟩
  · rintro ⟨either, heither⟩
    obtain ⟨both, hboth, -⟩ := (probability_or_eq_ok h).mp heither
    exact ⟨both, probability_and.trans hboth⟩

/-- The probability of a combination respects the bounds of probability theory. Both events together
are no more probable than either, at least one of them is no less probable than either and no more
than their sum, and the two combinations add up to that sum unless it is cut. For a full correlation
of either sign and for none at all these probabilities are the exact ones. Both combinations are
made or refused together, and for events that are not correlated they are made. -/
theorem probability_within_bounds (h : IsDistribution) (hc : c.validate = .ok ()) (hrho : |rho| ≤ 1) :
    let qa : ℝ := cdf (-betaA)
    let qb : ℝ := cdf (-betaB)
    (∀ both, probability c .and betaA betaB rho = .ok both →
      0 ≤ both ∧ both ≤ min qa qb ∧
      (rho = 1 → both = min qa qb) ∧
      (rho = -1 → both = max 0 (qa + qb - 1)) ∧
      (|rho| < c.rhoZero → both = qa * qb)) ∧
    (∀ either, probability c .or betaA betaB rho = .ok either →
      max qa qb ≤ either ∧ either ≤ min 1 (qa + qb) ∧
      (rho = 1 → either = max qa qb) ∧
      (rho = -1 → either = min 1 (qa + qb)) ∧
      (|rho| < c.rhoZero → either = qa + qb - qa * qb)) ∧
    (∀ both either, probability c .and betaA betaB rho = .ok both →
      probability c .or betaA betaB rho = .ok either → both + either = min (qa + qb) (1 + both)) ∧
    ((∃ both, probability c .and betaA betaB rho = .ok both) ↔
      ∃ either, probability c .or betaA betaB rho = .ok either) ∧
    (|rho| < c.rhoZero → ∃ both, probability c .and betaA betaB rho = .ok both) := by
  dsimp only
  -- Whether the events are both to occur decides only what is done with the joint probability.
  refine ⟨fun both hboth => ?_, fun either heither => ?_, fun both either => and_add_or h,
    exists_and_iff_exists_or h, fun hzero => ?_⟩
  · rw [probability_and] at hboth
    refine ⟨joint_nonneg h hboth, joint_le hboth, ?_, ?_, fun hzero => ?_⟩
    · rintro rfl
      exact joint_of_one h hc hboth
    · rintro rfl
      exact joint_of_neg_one h hc hboth
    · rw [joint_of_uncorrelated h hrho hzero, Except.ok.injEq] at hboth
      exact hboth.symm
  · refine ⟨max_le_probability_or h heither, probability_or_le h heither, ?_, ?_, fun hzero => ?_⟩
    · rintro rfl
      exact probability_or_of_one h hc heither
    · rintro rfl
      exact probability_or_of_neg_one h hc heither
    · exact probability_or_of_uncorrelated h hrho hzero heither
  · exact ⟨_, probability_and.trans (joint_of_uncorrelated h hrho hzero)⟩

end Combination

end

/-- Two events without correlation, which are independent under the standard configuration. -/
theorem Combination.probability_within_bounds_independent : ∃ both either : ℝ,
    probability .standard .and 1 2 0 = .ok both ∧ probability .standard .or 1 2 0 = .ok either ∧
      both = cdf (-1) * cdf (-2) ∧ either = cdf (-1) + cdf (-2) - cdf (-1) * cdf (-2) := by
  have hzero : |(0 : ℝ)| < Conditional.Config.standard.rhoZero := by
    norm_num [Conditional.Config.standard]
  obtain ⟨hand, hor, -, hanswered, hfound⟩ := probability_within_bounds
    SpecialFunctions.isDistribution Conditional.validate_standard (abs_zero.trans_le zero_le_one)
  obtain ⟨both, hboth⟩ := hfound hzero
  obtain ⟨either, heither⟩ := hanswered.mp ⟨both, hboth⟩
  obtain ⟨-, -, -, -, hproduct⟩ := hand both hboth
  obtain ⟨-, -, -, -, hsum⟩ := hor either heither
  exact ⟨both, either, hboth, heither, hproduct hzero, hsum hzero⟩

end FailureProbability

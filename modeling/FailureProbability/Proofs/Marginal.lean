import Mathlib
import FailureProbability.Marginal
import FailureProbability.Proofs.Execution
import FailureProbability.Proofs.Normal
import FailureProbability.Proofs.Special.ErrorIntegral

/-!
# Marginals as quantiles

A marginal gives every standard-normal coordinate the physical value below which there is the same
mass. On exact numbers it does so for every distribution that it knows (`HasDistribution`), and it
does not matter which of the two tails the value is computed from. As the mass rises with the value,
and the mass of the coordinate strictly with the coordinate, the value rises strictly with the
coordinate.

The distribution functions are written down here, as they are in any book, and not taken from the
code: `HasDistribution` is what the transforms are held against. The normal distribution itself is a
function that is supplied; that its masses rise strictly between zero and one and are alike in both
tails is a hypothesis (`Normal.IsDistribution`).

Marginals are those that come out of a constructor with parameters that it has accepted (`Made`).
Fixed and combined variables have no distribution and are not among them. What becomes of
coordinates so far out that a mass rounds to zero or one is left out; to keep the small one of the
two masses away from there is what the choice of a tail is for.
-/

namespace FailureProbability.Marginal

/-! ## Tails -/

section

variable {α : Type} [Scalar α]

/-- The negative logarithm of the mass beyond `u`, from this mass or from the rest. -/
def negLogExceedanceBy (beyond : Bool) (u : α) : α :=
  if beyond then -Scalar.log (Normal.cdf (-u)) else -Scalar.log1p (-Normal.cdf u)

/-- The negative logarithm of the mass up to `u`, from the mass beyond it or from this mass. -/
def negLogNonExceedanceBy (beyond : Bool) (u : α) : α :=
  if beyond then -Scalar.log1p (-Normal.cdf (-u)) else -Scalar.log (Normal.cdf u)

/-- The physical value by one of the two tails, whatever the sign of the coordinate. -/
def fromTail (m : Marginal α) (beyond : Bool) (u : α) : Except (Error α) α :=
  match m with
  | uniform lower upper =>
    let width := upper - lower
    .ok (if beyond then upper - width * Normal.cdf (-u) else lower + width * Normal.cdf u)
  | exponential rate shift => .ok (shift + negLogExceedanceBy beyond u / rate)
  | gumbel location scale => .ok (location - scale * Scalar.log (negLogNonExceedanceBy beyond u))
  | weibull shape scale => .ok (scale * Scalar.pow (negLogExceedanceBy beyond u) (1 / shape))
  | _ => m.fromNormal u

/-- The tail beyond a positive coordinate is taken, and the other one otherwise. -/
theorem fromNormal_eq_fromTail (m : Marginal α) (u : α) :
    m.fromNormal u = m.fromTail (decide (0 < u)) u := by
  cases m with
  | uniform lower upper =>
    simp only [fromNormal, fromTail, Normal.pqFromBeta, decide_eq_true_eq]
  | exponential rate shift =>
    simp only [fromNormal, fromTail, negLogExceedance, negLogExceedanceBy, decide_eq_true_eq]
  | gumbel location scale =>
    simp only [fromNormal, fromTail, negLogNonExceedance, negLogNonExceedanceBy, decide_eq_true_eq]
  | weibull shape scale =>
    simp only [fromNormal, fromTail, negLogExceedance, negLogExceedanceBy, decide_eq_true_eq]
  | normal | lognormal | deterministic | combined => rfl

/-! ## Construction -/

/-- The stochastic marginals with parameters that are accepted. -/
inductive Made : Marginal α → Prop
  | normal {mean deviation : α} {m : Marginal α} (h : ofNormal mean deviation = .ok m) : Made m
  | lognormal {mu sigma : α} {m : Marginal α} (h : ofLognormal mu sigma = .ok m) : Made m
  | moments {mean deviation : α} {m : Marginal α} (h : ofLognormalMoments mean deviation = .ok m) :
      Made m
  | uniform {lower upper : α} {m : Marginal α} (h : ofUniform lower upper = .ok m) : Made m
  | exponential {rate shift : α} {m : Marginal α} (h : ofExponential rate shift = .ok m) : Made m
  | gumbel {location scale : α} {m : Marginal α} (h : ofGumbel location scale = .ok m) : Made m
  | weibull {shape scale : α} {m : Marginal α} (h : ofWeibull shape scale = .ok m) : Made m
  | standardNormal : Made standardNormal

end

/-- What the constructors promise of the parameters. -/
def IsProper : Marginal ℝ → Prop
  | .normal _ deviation => 0 < deviation
  | .lognormal _ sigma => 0 < sigma
  | .uniform lower upper => lower < upper
  | .exponential rate _ => 0 < rate
  | .gumbel _ scale => 0 < scale
  | .weibull shape scale => 0 < shape ∧ 0 < scale
  | .deterministic _ => False
  | .combined .. => False

/-! ## Masses

The mass up to the value that belongs to the mass `p`. -/

section

variable {p : ℝ} (hpos : 0 < p) (hlt : p < 1)
include hpos hlt

/-- The mass of a coordinate has a logarithm below zero, so that the second logarithm exists. -/
theorem neg_log_pos : 0 < -Real.log p := neg_pos.mpr (Real.log_neg hpos hlt)

theorem neg_log_one_sub_pos : 0 < -Real.log (1 - p) :=
  neg_log_pos (sub_pos.mpr hlt) (sub_lt_self 1 hpos)

theorem uniform_mass {lower upper : ℝ} (hrange : lower < upper) :
    0 ⊔ (lower + (upper - lower) * p - lower) / (upper - lower) ⊓ 1 = p := by
  rw [add_sub_cancel_left, mul_div_cancel_left₀ p (sub_pos.mpr hrange).ne', min_eq_left hlt.le,
    max_eq_right hpos.le]

theorem exponential_mass {rate : ℝ} (hrate : 0 < rate) (shift : ℝ) :
    1 - Real.exp (-(rate * (shift + -Real.log (1 - p) / rate - shift) ⊔ 0)) = p := by
  rw [add_sub_cancel_left, mul_div_cancel₀ _ hrate.ne',
    max_eq_left (neg_log_one_sub_pos hpos hlt).le, neg_neg, Real.exp_log (sub_pos.mpr hlt),
    sub_sub_cancel]

theorem gumbel_mass {scale : ℝ} (hscale : 0 < scale) (location : ℝ) :
    Real.exp (-Real.exp (-((location - scale * Real.log (-Real.log p) - location) / scale))) = p := by
  rw [sub_sub_cancel_left, neg_div, mul_div_cancel_left₀ _ hscale.ne', neg_neg,
    Real.exp_log (neg_log_pos hpos hlt), neg_neg, Real.exp_log hpos]

theorem weibull_mass {shape scale : ℝ} (hshape : 0 < shape) (hscale : 0 < scale) :
    1 - Real.exp (-((scale * (-Real.log (1 - p)) ^ (1 / shape) / scale ⊔ 0) ^ shape)) = p := by
  have hlog := neg_log_one_sub_pos hpos hlt
  rw [mul_div_cancel_left₀ _ hscale.ne', max_eq_left (Real.rpow_nonneg hlog.le _),
    ← Real.rpow_mul hlog.le, one_div_mul_cancel hshape.ne', Real.rpow_one, neg_neg,
    Real.exp_log (sub_pos.mpr hlt), sub_sub_cancel]

end

section

variable [SpecialFunctions]

/-- On exact numbers a check for a positive number is one for its sign. -/
theorem checkPositive_eq_ok {quantity : String} {x : ℝ} :
    checkPositive quantity x = .ok () ↔ 0 < x := by
  unfold checkPositive
  rw [Scalar.isFinite_eq, Scalar.zero_eq]
  by_cases h : x ≤ 0
  · rw [if_pos (.inr h)]
    exact iff_of_false (fun hok => by cases hok) (not_lt.mpr h)
  · rw [if_neg (by simpa using h)]
    exact iff_of_true rfl (not_le.mp h)

omit [SpecialFunctions] in
/-- Where two checks stand before a construction, both have passed once it is done. -/
theorem passed_of_checks {first second : Except (Error ℝ) Unit} {x : Except (Error ℝ) (Marginal ℝ)}
    {m : Marginal ℝ} (h : (do first; second; x) = .ok m) :
    first = .ok () ∧ second = .ok () ∧ x = .ok m := by
  obtain ⟨_, hfirst, h⟩ := bind_eq_ok.mp h
  obtain ⟨_, hsecond, h⟩ := bind_eq_ok.mp h
  exact ⟨hfirst, hsecond, h⟩

/-- A log-normal distribution that is accepted is proper, whatever its parameters come from. -/
theorem isProper_of_lognormal {mu sigma : ℝ} {m : Marginal ℝ} (h : ofLognormal mu sigma = .ok m) :
    m.IsProper := by
  obtain ⟨-, hsigma, h⟩ := passed_of_checks h
  cases h
  exact checkPositive_eq_ok.mp hsigma

/-- Whatever is accepted is proper; for moments this is a matter of the parameters computed from
them. -/
theorem Made.isProper {m : Marginal ℝ} (h : m.Made) : m.IsProper := by
  cases h with
  | normal h =>
    obtain ⟨-, hdeviation, h⟩ := passed_of_checks h
    cases h
    exact checkPositive_eq_ok.mp hdeviation
  | lognormal h => exact isProper_of_lognormal h
  | moments h => exact isProper_of_lognormal (passed_of_checks h).2.2
  | @uniform lower upper _ h =>
    obtain ⟨-, -, h⟩ := passed_of_checks h
    by_cases hrange : upper ≤ lower
    · rw [if_pos hrange] at h
      cases h
    · rw [if_neg hrange] at h
      cases h
      exact not_le.mp hrange
  | exponential h =>
    obtain ⟨hrate, -, h⟩ := passed_of_checks h
    cases h
    exact checkPositive_eq_ok.mp hrate
  | gumbel h =>
    obtain ⟨-, hscale, h⟩ := passed_of_checks h
    cases h
    exact checkPositive_eq_ok.mp hscale
  | weibull h =>
    obtain ⟨hshape, hscale, h⟩ := passed_of_checks h
    cases h
    exact ⟨checkPositive_eq_ok.mp hshape, checkPositive_eq_ok.mp hscale⟩
  | standardNormal => exact (Scalar.one_eq ▸ one_pos : (0 : ℝ) < _)

/-! ## Distributions -/

/-- The distribution function of a marginal: the mass up to a physical value. -/
inductive HasDistribution : Marginal ℝ → (ℝ → ℝ) → Prop
  | normal (mean deviation : ℝ) :
      HasDistribution (.normal mean deviation) fun x => Normal.cdf ((x - mean) / deviation)
  | lognormal (mu sigma : ℝ) :
      HasDistribution (.lognormal mu sigma) fun x =>
        if 0 < x then Normal.cdf ((Real.log x - mu) / sigma) else 0
  | uniform (lower upper : ℝ) :
      HasDistribution (.uniform lower upper) fun x => 0 ⊔ (x - lower) / (upper - lower) ⊓ 1
  -- There is no mass below the shift, and below zero none of a Weibull distribution.
  | exponential (rate shift : ℝ) :
      HasDistribution (.exponential rate shift) fun x =>
        1 - Real.exp (-(rate * (x - shift) ⊔ 0))
  | gumbel (location scale : ℝ) :
      HasDistribution (.gumbel location scale) fun x =>
        Real.exp (-Real.exp (-((x - location) / scale)))
  | weibull (shape scale : ℝ) :
      HasDistribution (.weibull shape scale) fun x => 1 - Real.exp (-((x / scale ⊔ 0) ^ shape))

variable (h : Normal.IsDistribution)
include h

/-- The mass up to a value does not fall. -/
theorem HasDistribution.monotone {m : Marginal ℝ} {F : ℝ → ℝ} (hF : m.HasDistribution F)
    (hm : m.IsProper) : Monotone F := by
  intro x y hxy
  cases hF with
  | normal mean deviation =>
    have hdeviation : 0 < deviation := hm
    refine h.strictMono.monotone ?_
    gcongr
  | lognormal mu sigma =>
    have hsigma : 0 < sigma := hm
    dsimp only
    by_cases hx : 0 < x
    · rw [if_pos hx, if_pos (hx.trans_le hxy)]
      refine h.strictMono.monotone ?_
      gcongr
    · rw [if_neg hx]
      split
      · exact (h.pos _).le
      · exact le_rfl
  | uniform lower upper =>
    have hwidth : 0 < upper - lower := sub_pos.mpr hm
    dsimp only
    gcongr
  | exponential rate shift =>
    have hrate : 0 < rate := hm
    dsimp only
    gcongr
  | gumbel location scale =>
    have hscale : 0 < scale := hm
    dsimp only
    gcongr
  | weibull shape scale =>
    obtain ⟨hshape, hscale⟩ : 0 < shape ∧ 0 < scale := hm
    dsimp only
    gcongr

/-! ## Values -/

/-- Both tails have the same logarithm. -/
theorem negLogExceedanceBy_eq (beyond : Bool) (u : ℝ) :
    negLogExceedanceBy beyond u = -Real.log (1 - Normal.cdf u) := by
  cases beyond with
  | true =>
    show -Real.log (Normal.cdf (-u)) = _
    rw [h.symm]
  | false =>
    show -Real.log (1 + -Normal.cdf u) = _
    rw [← sub_eq_add_neg]

theorem negLogNonExceedanceBy_eq (beyond : Bool) (u : ℝ) :
    negLogNonExceedanceBy beyond u = -Real.log (Normal.cdf u) := by
  cases beyond with
  | true =>
    show -Real.log (1 + -Normal.cdf (-u)) = _
    rw [← sub_eq_add_neg, ← h.cdf_eq_one_sub]
  | false => rfl

/-- By whichever tail, the value of a coordinate is the one up to which there is the mass of the
coordinate. -/
theorem exists_value {m : Marginal ℝ} (hm : m.IsProper) : ∃ F x : ℝ → ℝ, m.HasDistribution F ∧
    (∀ beyond u, m.fromTail beyond u = .ok (x u)) ∧ ∀ u, F (x u) = Normal.cdf u := by
  cases m with
  | normal mean deviation =>
    refine ⟨_, fun u => mean + deviation * u, .normal mean deviation, fun _ _ => rfl, fun u => ?_⟩
    have hdeviation : 0 < deviation := hm
    rw [add_sub_cancel_left, mul_div_cancel_left₀ u hdeviation.ne']
  | lognormal mu sigma =>
    refine ⟨_, fun u => Real.exp (mu + sigma * u), .lognormal mu sigma, fun _ _ => rfl, fun u => ?_⟩
    have hsigma : 0 < sigma := hm
    dsimp only
    rw [if_pos (Real.exp_pos _), Real.log_exp, add_sub_cancel_left,
      mul_div_cancel_left₀ u hsigma.ne']
  | uniform lower upper =>
    refine ⟨_, fun u => lower + (upper - lower) * Normal.cdf u, .uniform lower upper,
      fun beyond u => ?_, fun u => uniform_mass (h.pos u) (h.lt_one u) hm⟩
    cases beyond with
    | true =>
      show Except.ok (upper - (upper - lower) * Normal.cdf (-u)) = _
      rw [h.symm]
      congr 1
      ring
    | false => rfl
  | exponential rate shift =>
    refine ⟨_, fun u => shift + -Real.log (1 - Normal.cdf u) / rate, .exponential rate shift,
      fun beyond u => ?_, fun u => exponential_mass (h.pos u) (h.lt_one u) hm shift⟩
    show Except.ok (shift + negLogExceedanceBy beyond u / rate) = _
    rw [negLogExceedanceBy_eq h]
  | gumbel location scale =>
    refine ⟨_, fun u => location - scale * Real.log (-Real.log (Normal.cdf u)),
      .gumbel location scale, fun beyond u => ?_,
      fun u => gumbel_mass (h.pos u) (h.lt_one u) hm location⟩
    show Except.ok (location - scale * Real.log (negLogNonExceedanceBy beyond u)) = _
    rw [negLogNonExceedanceBy_eq h]
  | weibull shape scale =>
    refine ⟨_, fun u => scale * (-Real.log (1 - Normal.cdf u)) ^ (1 / shape), .weibull shape scale,
      fun beyond u => ?_, fun u => weibull_mass (h.pos u) (h.lt_one u) hm.1 hm.2⟩
    show Except.ok (scale * (negLogExceedanceBy beyond u) ^
      ((@OfNat.ofNat ℝ 1 (Scalar.instOfNat 1)) / shape)) = _
    rw [negLogExceedanceBy_eq h, Scalar.one_eq]
  | deterministic value => exact hm.elim
  | combined first second op => exact hm.elim

/-- Marginals are quantile transforms. On exact numbers, and for all parameters that are accepted,
the physical value of a coordinate is the one up to which the distribution has the mass of the
coordinate. Both tails give the same value, and the value rises strictly with the coordinate. -/
theorem marginals_are_quantile_transforms {m : Marginal ℝ} (hm : m.Made) :
    ∃ F x : ℝ → ℝ, m.HasDistribution F ∧ (∀ u, m.fromNormal u = .ok (x u)) ∧
      (∀ beyond u, m.fromTail beyond u = .ok (x u)) ∧ (∀ u, F (x u) = Normal.cdf u) ∧
      StrictMono x := by
  obtain ⟨F, x, hF, hvalue, hmass⟩ := exists_value h hm.isProper
  refine ⟨F, x, hF, fun u => ?_, hvalue, hmass, fun u v huv => ?_⟩
  · rw [fromNormal_eq_fromTail]
    exact hvalue _ u
  -- A value that does not rise would have no more mass, but the coordinate has.
  · by_contra hle
    have hfalls := hF.monotone h hm.isProper (not_lt.mp hle)
    rw [hmass, hmass] at hfalls
    exact absurd (h.strictMono huv) (not_lt.mpr hfalls)

end

theorem made_weibull : (weibull 2 3 : Marginal ℝ).Made := by
  have hscale : checkPositive "scale" (3 : ℝ) = .ok () := checkPositive_eq_ok.mpr three_pos
  have hmade : ofWeibull 2 3 = .ok (weibull 2 3 : Marginal ℝ) :=
    bind_eq_ok.mpr ⟨(), checkPositive_eq_ok.mpr two_pos, bind_eq_ok.mpr ⟨(), hscale, rfl⟩⟩
  exact .weibull hmade

/-- The mass of a Weibull distribution is reached at the value of every coordinate. -/
theorem marginals_are_quantile_transforms_weibull :
    Normal.IsDistribution ∧ (weibull 2 3 : Marginal ℝ).Made ∧
      ∃ x : ℝ → ℝ, (∀ u, (weibull 2 3).fromNormal u = .ok (x u)) ∧
        (∀ beyond u, (weibull 2 3).fromTail beyond u = .ok (x u)) ∧
        (∀ u, 1 - Real.exp (-((x u / 3 ⊔ 0) ^ (2 : ℝ))) = Normal.cdf u) ∧ StrictMono x := by
  obtain ⟨F, x, hF, hvalue, htail, hmass, hmono⟩ :=
    marginals_are_quantile_transforms SpecialFunctions.isDistribution made_weibull
  cases hF
  exact ⟨SpecialFunctions.isDistribution, made_weibull, x, hvalue, htail, hmass, hmono⟩

end FailureProbability.Marginal

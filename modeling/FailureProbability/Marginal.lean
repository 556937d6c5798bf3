import FailureProbability.Error
import FailureProbability.Normal

/-!
# Marginal distributions

A marginal maps a standard-normal value `u` to the physical value with the same non-exceedance
probability. The tail that is small is evaluated directly, so that extreme values keep their
precision. A fixed value and a combination of two other variables take no standard-normal coordinate
of their own.

Parameters are checked when a marginal is made by one of the functions below, and not when it is
used: a marginal that is written down directly may have any parameters. Its value at a coordinate is
then what the formula gives, which need not be a finite number; the same holds of coordinates far
outside the range where the masses are above zero.

Combined variables name their operands by index. Whether these exist and whether a variable depends
on itself is a matter of the setup.
-/

namespace FailureProbability

/-- How a combined variable follows from two others. -/
inductive CombineRule where
  | sum
  | product
  | min
  | max
  deriving Repr, BEq, DecidableEq

/-- The kinds of variables. A fixed one and a combined one have no distribution of their own. -/
inductive Marginal (α : Type) where
  | normal (mean deviation : α)
  /-- The logarithm is normal with mean `mu` and deviation `sigma`. -/
  | lognormal (mu sigma : α)
  | uniform (lower upper : α)
  | exponential (rate shift : α)
  | gumbel (location scale : α)
  | weibull (shape scale : α)
  | deterministic (value : α)
  /-- Derived from the variables with these indices. -/
  | combined (first second : Nat) (op : CombineRule)
  deriving Repr, BEq

namespace Marginal

variable {α : Type} [Scalar α]

/-! ## Construction -/

def checkFinite (quantity : String) (value : α) : Except (Error α) Unit :=
  if Scalar.isFinite value then .ok () else .error (.invalid (.notFinite quantity value))

def checkPositive (quantity : String) (value : α) : Except (Error α) Unit :=
  if Scalar.isFinite value = false ∨ value ≤ 0 then
    .error (.invalid (.notFinitePositive quantity value))
  else .ok ()

/-- The normal distribution with mean zero and deviation one. -/
def standardNormal : Marginal α := .normal 0 1

def ofNormal (mean deviation : α) : Except (Error α) (Marginal α) := do
  checkFinite "mean" mean
  checkPositive "deviation" deviation
  return .normal mean deviation

/-- A log-normal distribution by the moments of its logarithm. -/
def ofLognormal (mu sigma : α) : Except (Error α) (Marginal α) := do
  checkFinite "mu" mu
  checkPositive "sigma" sigma
  return .lognormal mu sigma

/-- A log-normal distribution by its own mean and deviation. -/
def ofLognormalMoments (mean deviation : α) : Except (Error α) (Marginal α) := do
  checkPositive "mean" mean
  checkPositive "deviation" deviation
  let ratio := deviation / mean
  let variance := Scalar.log (Scalar.mulAdd ratio ratio 1)
  ofLognormal (Scalar.log mean - 0.5 * variance) (Scalar.sqrt variance)

/-- A uniform distribution on a range that is not empty. -/
def ofUniform (lower upper : α) : Except (Error α) (Marginal α) := do
  checkFinite "lower" lower
  checkFinite "upper" upper
  if upper ≤ lower then throw (.invalid (.emptyRange lower upper))
  return .uniform lower upper

/-- An exponential distribution that begins at `shift`. -/
def ofExponential (rate shift : α) : Except (Error α) (Marginal α) := do
  checkPositive "rate" rate
  checkFinite "shift" shift
  return .exponential rate shift

def ofGumbel (location scale : α) : Except (Error α) (Marginal α) := do
  checkFinite "location" location
  checkPositive "scale" scale
  return .gumbel location scale

def ofWeibull (shape scale : α) : Except (Error α) (Marginal α) := do
  checkPositive "shape" shape
  checkPositive "scale" scale
  return .weibull shape scale

def ofValue (value : α) : Except (Error α) (Marginal α) := do
  checkFinite "value" value
  return .deterministic value

/-! ## Properties -/

/-- The name of a kind of variable, as errors have it. -/
def name : Marginal α → String
  | normal .. => "normal"
  | lognormal .. => "lognormal"
  | uniform .. => "uniform"
  | exponential .. => "exponential"
  | gumbel .. => "gumbel"
  | weibull .. => "weibull"
  | deterministic _ => "deterministic"
  | combined _ _ .sum => "combined-sum"
  | combined _ _ .product => "combined-product"
  | combined _ _ .min => "combined-min"
  | combined _ _ .max => "combined-max"

def parameterCount : Marginal α → Nat
  | deterministic _ => 1
  | _ => 2

def isDeterministic : Marginal α → Bool
  | deterministic _ => true
  | _ => false

/-- The variables that a combined one is derived from. -/
def operands : Marginal α → Option (Nat × Nat)
  | combined first second _ => some (first, second)
  | _ => none

/-- Does the variable take a standard-normal coordinate? -/
def isStochastic (m : Marginal α) : Bool := !m.isDeterministic && m.operands.isNone

/-! ## Values -/

/-- The negative logarithm of the mass beyond `u`. -/
def negLogExceedance (u : α) : α :=
  if 0 < u then -Scalar.log (Normal.cdf (-u)) else -Scalar.log1p (-Normal.cdf u)

/-- The negative logarithm of the mass up to `u`. -/
def negLogNonExceedance (u : α) : α :=
  if 0 < u then -Scalar.log1p (-Normal.cdf (-u)) else -Scalar.log (Normal.cdf u)

/-- The physical value with the non-exceedance probability of `u`. -/
def fromNormal (m : Marginal α) (u : α) : Except (Error α) α :=
  match m with
  | normal mean deviation => .ok (mean + deviation * u)
  | lognormal mu sigma => .ok (Scalar.exp (mu + sigma * u))
  | uniform lower upper =>
    let (p, q) := Normal.pqFromBeta u
    let width := upper - lower
    .ok (if 0 < u then upper - width * q else lower + width * p)
  | exponential rate shift => .ok (shift + negLogExceedance u / rate)
  | gumbel location scale => .ok (location - scale * Scalar.log (negLogNonExceedance u))
  | weibull shape scale => .ok (scale * Scalar.pow (negLogExceedance u) (1 / shape))
  | deterministic value => .ok value
  | combined first second _ => .error (.invalid (.derived m.name first second))

/-- The value of a combined variable, from those of the two others. -/
def fromPair (m : Marginal α) (x y : α) : Except (Error α) α :=
  match m with
  | combined _ _ .sum => .ok (x + y)
  | combined _ _ .product => .ok (x * y)
  | combined _ _ .min => .ok (Scalar.min x y)
  | combined _ _ .max => .ok (Scalar.max x y)
  | _ => .error (.invalid (.notCombined m.name))

end Marginal

end FailureProbability

import FailureProbability.Scalar

/-!
# The distance from the origin

Along a uniformly distributed direction of `n`-dimensional standard-normal space the squared
distance is chi-square distributed with `n` degrees of freedom. These are its two tails. Without any
dimension all of the mass is at the origin.

The two tails are evaluated apart and need not add up to one in arithmetic that rounds. A distance
that is not a number counts as zero.
-/

namespace FailureProbability.Radius

variable {α : Type} [Scalar α]

def exceedance (n : Nat) (r : α) : α :=
  if n = 0 then 0
  else if Scalar.isNaN r = true ∨ r ≤ 0 then 1
  else if Scalar.isFinite r then Scalar.gammaUpper (0.5 * Scalar.ofNat n) (0.5 * r * r)
  else 0

/-- The probability that the distance is at most `r`. -/
def nonExceedance (n : Nat) (r : α) : α :=
  if n = 0 then 1
  else if Scalar.isNaN r = true ∨ r ≤ 0 then 0
  else if Scalar.isFinite r then Scalar.gammaLower (0.5 * Scalar.ofNat n) (0.5 * r * r)
  else 1

end FailureProbability.Radius

import FailureProbability.Scalar

/-!
# The standard normal distribution

The reliability index `beta` and the failure probability belong together by `q = Φ(-beta)`. Both
tails are evaluated through the complementary error function, so that each is accurate where it is
small. `betaFromQ` inverts the tail and ends at `± betaMax`.

The complementary error function and its inverse are operations of the numbers. Nothing is said of
them here, and so nothing of `cdf` but how it is made from them; what statements on probabilities
need of both is collected in `Proofs.Normal`. The Newton step of `betaOfTail` corrects what the
inverse is off by, and is passed over where the density is too small to divide by.
-/

namespace FailureProbability.Normal

variable {α : Type} [Scalar α]

def betaMax : α := 40

/-- The logarithm of `√(2π)`. -/
def logSqrtTwoPi : α := 0.9189385332046727

def sqrtTwo : α := 1.4142135623730951

/-- The density of the standard normal distribution. -/
def pdf (u : α) : α := Scalar.exp (-0.5 * u * u - logSqrtTwoPi)

/-- The mass `Φ(u)` up to `u`. -/
def cdf (u : α) : α := 0.5 * Scalar.erfc (-u / sqrtTwo)

/-- The masses `Φ(beta)` and `Φ(-beta)` on both sides. -/
def pqFromBeta (beta : α) : α × α := (cdf beta, cdf (-beta))

/-- The reliability index of an exceedance probability of at most one half: the inverse of the
tail, polished by one Newton step. -/
def betaOfTail (q : α) : α :=
  let beta := sqrtTwo * Scalar.erfcInv (2 * q)
  let density := pdf beta
  let polished :=
    if 0 < density ∧ Scalar.isFinite density then beta + (cdf (-beta) - q) / density else beta
  Scalar.clamp polished (-betaMax) betaMax

/-- The reliability index of an exceedance probability. -/
def betaFromQ (q : α) : α :=
  if Scalar.isNaN q then q
  else if q ≤ 0 then betaMax
  else if 1 ≤ q then -betaMax
  else if 0.5 < q then -betaOfTail (1 - q)
  else betaOfTail q

/-- The reliability index of a non-exceedance probability. -/
def betaFromP (p : α) : α := -betaFromQ p

end FailureProbability.Normal

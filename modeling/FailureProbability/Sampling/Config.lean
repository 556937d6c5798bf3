import FailureProbability.Estimate
import FailureProbability.Model
import FailureProbability.Random.Source

/-!
# Settings of sampling

How many samples are drawn, when their number suffices, where they come from, and how many are
evaluated together. After every sample a run reports and then decides whether to stop
(`Config.settle`): because it was told to, because both variation coefficients are small enough, or
because the budget is used up, in this order.

The rule looks at numbers only, and it is the same for all that is done by samples: the two engines
and the directions use it with tallies of their own. Of the settings it reads the budget, the least
number of samples and the two bounds; the rest is for those who draw.
-/

namespace FailureProbability

namespace Sampling

/-- When a run of samples ends, what it draws from, and how many samples are evaluated together. -/
structure Config (α : Type) where
  /-- The samples before a run may converge. -/
  minSamples : Nat
  /-- The samples after which a run ends. -/
  maxSamples : Nat
  /-- The variation coefficient of the failure probability to reach. -/
  varCoeffFailure : α
  /-- The variation coefficient of its complement to reach. -/
  varCoeffNoFailure : α
  seed : UInt64
  generator : Random.Generator
  /-- Evaluate several samples together. -/
  buffered : Bool
  /-- How many are evaluated together; zero stands for ten per thread. -/
  chunkSize : Nat
  deriving Repr, BEq

namespace Config

variable {α : Type} [Scalar α]

def standard : Config α := ⟨1000, 1000000, 0.1, 0.1, 0, .chacha, true, 0⟩

def validate (c : Config α) : Except (Error α) Unit := do
  if c.maxSamples = 0 then throw (.invalid (.zeroCount "max_samples"))
  if c.maxSamples < c.minSamples then
    throw (.invalid (.sampleRange c.minSamples c.maxSamples))
  for (name, v) in [("var_coeff_failure", c.varCoeffFailure),
      ("var_coeff_no_failure", c.varCoeffNoFailure)] do
    if !Scalar.isPositive v then throw (.invalid (.notPositive name v))

def source (c : Config α) : Random.Seeded := Random.Seeded.new c.generator c.seed

/-- The number of samples that are drawn and evaluated together. -/
def chunk (c : Config α) (threads : Nat) : Nat :=
  Nat.max (if c.chunkSize = 0 then 10 * threads else c.chunkSize) 1

/-- Enough samples, and both variation coefficients small enough. -/
def isConverged (c : Config α) (n : Nat) (failure noFailure : α) : Bool :=
  decide (c.minSamples ≤ n) && decide (failure ≤ c.varCoeffFailure) &&
    decide (noFailure ≤ c.varCoeffNoFailure)

/-- A bound for the samples of a run: it ends when it has this many, and it has at least one. -/
def fuel (c : Config α) : Nat := Nat.max c.maxSamples 1

end Config

variable {α : Type} [Scalar α]

/-- The reliability index of an estimated failure probability. -/
def betaOf (pf : α) : α := Normal.betaFromQ (Scalar.clamp pf 0 1)

/-- Reports after `n` samples and tells how the run ends, if it ends here. -/
def Config.settle (c : Config α) (m : Model α) (n : Nat) (pf failure noFailure : α) :
    Run α (Option Status) := do
  if ← m.report ⟨n, c.maxSamples, betaOf pf, Scalar.max failure noFailure⟩ then
    return some .abortedByUser
  -- The last sample of the budget may still be the one that converges.
  else if c.isConverged n failure noFailure then return some .success
  else if c.maxSamples ≤ n then return some .noConvergence
  else return none

end Sampling

end FailureProbability

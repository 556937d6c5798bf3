import FailureProbability.Estimator
import FailureProbability.Sampling.Engine

/-!
# Crude Monte Carlo

Samples of the standard-normal density, all of weight one. The direction of the estimate is that of
the nearest sample of the rarer domain.
-/

namespace FailureProbability.Sampling.Crude

variable {α : Type} [Scalar α]

def name : String := "CrudeMonteCarlo"

/-- The estimate from standard-normal samples; its direction is that of the nearest one. -/
def estimate (c : Config α) (m : Model α) : Run α (Estimate α) := do
  let o ← runFresh m c (Density.standard m.dimension)
  o.estimate m name .nearest

def estimator (c : Config α) : Except (Error α) (Estimator α) := do
  c.validate
  return .unseeded name (estimate c)

end FailureProbability.Sampling.Crude

import FailureProbability.Estimate
import FailureProbability.Model

/-!
# Estimators

An estimator computes an estimate for a model, from nothing or from an earlier estimate. An
estimator is made from settings that were checked, so that it holds no settings of its own, and
running it a second time begins anew: whatever it draws, it draws from the beginning of its source.
-/

namespace FailureProbability

/-- A way to estimate the failure probability of a model. -/
structure Estimator (α : Type) where
  name : String
  estimate : Model α → Run α (Estimate α)
  /-- The estimate with the help of an earlier one. -/
  estimateAfter : Estimate α → Model α → Run α (Estimate α)

namespace Estimator

variable {α : Type}

/-- An estimator that has no use for an earlier estimate. -/
def unseeded (name : String) (estimate : Model α → Run α (Estimate α)) : Estimator α :=
  ⟨name, estimate, fun _ m => estimate m⟩

/-- An estimate known beforehand, in the place of an estimator. -/
def known (name : String) (estimate : Estimate α) : Estimator α :=
  unseeded name fun _ => return estimate

end Estimator

end FailureProbability

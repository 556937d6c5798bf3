import FailureProbability.Directional
import FailureProbability.Form
import FailureProbability.Sampling.Crude
import FailureProbability.Sampling.Importance

/-!
# Chains of two estimators

A second estimator may stand in when the first is not trusted, or it may refine the direction of the
first, whose reliability index is kept. A chain that was stopped goes no further. The chains with
names of their own follow at the end.

Either stage may itself be a chain, and a chain has no use for an earlier estimate: only its second
stage gets one, that of its first. An error of a stage is the error of the chain; the second stage
does not stand in for it.

The settings of the stages are checked when the chain is made, the first stage first. The bounds of
an envelope are not checked: with the greatest index below the least one no estimate is accepted,
and the second estimator always follows.
-/

namespace FailureProbability

/-- The reliability indices that are accepted from a first estimator. -/
structure Envelope (α : Type) where
  least : α
  greatest : α
  deriving Repr, BEq

namespace Envelope

variable {α : Type} [Scalar α]

def standard : Envelope α := ⟨0, Normal.betaMax⟩

/-- Has the estimate converged with an index inside the envelope? -/
def accepts (e : Envelope α) (r : Estimate α) : Bool :=
  r.converged && decide (e.least ≤ r.direction.beta) && decide (r.direction.beta ≤ e.greatest)

end Envelope

namespace Estimator

variable {α : Type} [Scalar α]

/-- The estimate of the first, or that of the second where the first is not accepted. -/
def fallback (name : String) (first second : Estimator α) (envelope : Envelope α) : Estimator α :=
  .unseeded name fun m => do
    let a ← first.estimate m
    if a.status = .abortedByUser then return a
    else if envelope.accepts a then return a
    else
      let b ← second.estimateAfter a m
      return b.afterStage a

/-- The index and the status of the first estimate with the direction of the second, if that has
converged. -/
def mergeDirection (m : Model α) (a b : Estimate α) : Run α (Estimate α) :=
  if b.converged then do
    let d := b.direction.withBeta a.direction.beta
    let u := d.designPoint
    let x ← Run.ofExcept (m.x u)
    return Estimate.afterStage { b with status := a.status, direction := d, x := x, u := u } a
  else
    return { a with
      method := a.method ++ "+" ++ b.method
      steps := Estimate.addCounts a.steps b.steps
      evaluations := Estimate.addCounts a.evaluations b.evaluations }

/-- The estimate of the first with its direction refined by the second. -/
def refine (name : String) (first second : Estimator α) : Estimator α :=
  .unseeded name fun m => do
    let a ← first.estimate m
    if a.status = .abortedByUser then return a
    else
      let b ← second.estimateAfter a m
      -- A stop in the second stage stops the whole, whose direction is then the second one's.
      if b.status = .abortedByUser then return b.afterStage a else mergeDirection m a b

/-! ## Named chains -/

/-- The first-order method, and directional sampling where it fails. -/
def fdir (form : Form.Config α) (directional : Directional.Config α) (envelope : Envelope α) :
    Except (Error α) (Estimator α) := do
  let first ← Form.estimator form
  return fallback "FDIR" first (← Directional.estimator directional) envelope

/-- Directional sampling with the direction of the first-order method. -/
def dsfi (directional : Directional.Config α) (form : Form.Config α) :
    Except (Error α) (Estimator α) := do
  let first ← Directional.estimator directional
  return refine "DSFI" first (← Form.estimator form)

/-- The same with rays that end on the failing side. -/
def dsfiHr (directional : Directional.Config α) (form : Form.Config α) :
    Except (Error α) (Estimator α) := do
  let first ← Directional.estimator { directional with rayMethod := .linearLoop .firstNegative }
  return refine "DSFI-HR" first (← Form.estimator form)

/-- The first-order method, and directional sampling with its direction where it fails. -/
def formDsfi (form : Form.Config α) (directional : Directional.Config α) (envelope : Envelope α) :
    Except (Error α) (Estimator α) := do
  let first ← Form.estimator form
  return fallback "FORM+DSFI" first (← dsfi directional form) envelope

/-- Crude Monte Carlo with the direction of the first-order method. -/
def cmcForm (sampling : Sampling.Config α) (form : Form.Config α) :
    Except (Error α) (Estimator α) := do
  let first ← Sampling.Crude.estimator sampling
  return refine "CMC-FORM" first (← Form.estimator form)

/-- Importance sampling with the direction of the first-order method. -/
def cmimForm (importance : Sampling.Importance.Config α) (form : Form.Config α) :
    Except (Error α) (Estimator α) := do
  let first ← Sampling.Importance.estimator importance
  return refine "CMIM-FORM" first (← Form.estimator form)

end Estimator

end FailureProbability

import FailureProbability.Estimator
import FailureProbability.Sampling.Engine

/-!
# Adaptive importance sampling

Importance sampling is repeated until the share of failing samples is balanced. A run with too few
failures widens the density and begins the random source anew; an unbalanced run moves the density
to the design point that it found. All runs share one circular supply, from which the engine draws.

Too few is a matter of failing samples only. A run in which nearly all samples fail is unbalanced,
and it moves the density like a run in which few do.

The estimate is that of the last run, with the work of all of them. Budgets, convergence and orders
to stop are those of single runs; the loop itself stops at an order that a run was given and reports
nothing of its own. Centre and variances of the density are checked whenever one of them changes, so
that a loop may end with an error in the middle.
-/

namespace FailureProbability.Sampling.Adaptive

/-- The settings of the loop, with those of its single runs. -/
structure Config (α : Type) where
  sampling : Sampling.Config α
  /-- The centre of the first density; none stands for the origin. -/
  startOffset : List α
  startVarianceFactor : α
  /-- The greatest number of runs, a final one apart. -/
  maxLoops : Nat
  /-- The failing samples below which a run has too few. -/
  minFailed : Nat
  /-- A run is balanced when its failing share, and the safe one, is at least this. -/
  balancedFraction : α
  /-- The factor by which a density is widened. -/
  varianceIncrease : α
  /-- The factor by which the budget of a final run exceeds that of the others; there is no final
  run when it is at most one. -/
  finalRunScale : α
  /-- Move the density to the nearest failing sample itself. -/
  rawOffsetUpdate : Bool
  deriving Repr, BEq

variable {α : Type} [Scalar α]

namespace Config

def standard : Config α := ⟨.standard, [], 1, 10, 10, 0.1, 1.5, 1, false⟩

def validate (c : Config α) : Except (Error α) Unit := do
  c.sampling.validate
  if c.maxLoops = 0 then throw (.invalid (.zeroCount "max_loops"))
  if ¬(0 < c.balancedFraction ∧ c.balancedFraction < 0.5) then
    throw (.invalid (.balancedFraction c.balancedFraction))
  if ¬(Scalar.isFinite c.varianceIncrease = true ∧ 1 < c.varianceIncrease) then
    throw (.invalid (.varianceIncrease c.varianceIncrease))
  if !Scalar.isPositive c.startVarianceFactor then
    throw (.invalid (.notPositiveSilent "start_variance_factor"))
  if !Scalar.isFinite c.finalRunScale then
    throw (.invalid (.notFiniteSilent "final_run_scale"))

def density (c : Config α) (n : Nat) : Except (Error α) (Density α) :=
  Density.new (if c.startOffset.isEmpty then Coordinates.origin n else c.startOffset)
    (List.replicate n c.startVarianceFactor)

def finalSampling (c : Config α) : Sampling.Config α :=
  { c.sampling with
    maxSamples := Scalar.ceilNat (Scalar.ofNat c.sampling.maxSamples * c.finalRunScale) }

/-- Is the share of failing samples between its two bounds? -/
def isBalanced (c : Config α) (t : Tally α) : Bool :=
  let fraction : α := Scalar.ofNat t.failed.count / Scalar.ofNat t.count
  decide (c.balancedFraction ≤ fraction) && decide (fraction ≤ 1 - c.balancedFraction)

def nextOffset (c : Config α) (n : Nat) (t : Tally α) : Option (List α) :=
  if c.rawOffsetUpdate then t.nearestFailure
  else some (t.direction n .weightedMean).designPoint

def recentre (c : Config α) (n : Nat) (d : Density α) (t : Tally α) :
    Except (Error α) (Density α) :=
  match c.nextOffset n t with
  | some offset => d.withOffset offset
  | none => .ok d

end Config

def name : String := "AdaptiveImportanceSampling"

variable {σ : Type} [RandomSource σ α]

/-- The estimate of the last run, with the steps and evaluations of all. -/
def finish (m : Model α) (o : Outcome α) (status : Status) (steps evaluations : Nat) :
    Sampler σ α (Estimate α) := do
  let e ← Sampler.lift (o.estimate m name .weightedMean)
  return { e with status := status, steps := steps, evaluations := evaluations }

/-- What makes a run with given settings and a given density. -/
abbrev Engine (σ α : Type) := Sampling.Config α → Density α → Sampler σ α (Outcome α)

/-- The runs that are left, after so many steps and evaluations; `last` is the outcome of the run
before. -/
def loops (run : Engine σ α) (c : Config α) (m : Model α) :
    Nat → Density α → Nat → Nat → Option (Outcome α) → Sampler σ α (Estimate α)
  | 0, _, steps, evaluations, last =>
    match last with
    | some o => finish m o .noConvergence steps evaluations
    | none => return Estimate.notStarted name m.dimension
  | left + 1, d, steps, evaluations, _ => do
    let o ← run c.sampling d
    let steps := steps + o.tally.count
    let evaluations := evaluations + o.evaluations
    if o.status = .abortedByUser then finish m o .abortedByUser steps evaluations
    else if o.tally.failed.count < c.minFailed then
      -- The wider density sees the same numbers again, without those that were drawn ahead.
      let d ← Sampler.lift (Run.ofExcept (d.withVarianceScaled c.varianceIncrease))
      modify fun s => s.restart.clear
      loops run c m left d steps evaluations (some o)
    else if c.isBalanced o.tally then
      -- A final run goes on in the stream and replaces the estimate, not the work.
      if c.finalRunScale ≤ 1 then finish m o o.status steps evaluations
      else
        let o ← run c.finalSampling d
        finish m o o.status (steps + o.tally.count) (evaluations + o.evaluations)
    else
      let d ← Sampler.lift (Run.ofExcept (c.recentre m.dimension d o.tally))
      loops run c m left d steps evaluations (some o)

def estimateOn (run : Engine σ α) (c : Config α) (m : Model α) : Sampler σ α (Estimate α) := do
  let d ← Sampler.lift (Run.ofExcept (c.density m.dimension))
  loops run c m c.maxLoops d 0 0 none

/-- The estimate of all runs on a fresh supply, each of them buffered. -/
def estimate (c : Config α) (m : Model α) : Run α (Estimate α) :=
  Sampler.withSupply (Supply.fresh c.sampling.source true) (estimateOn (buffered m) c m)

def estimator (c : Config α) : Except (Error α) (Estimator α) := do
  c.validate
  return .unseeded name (estimate c)

end FailureProbability.Sampling.Adaptive

import FailureProbability.Estimator.Chain
import FailureProbability.Grid
import FailureProbability.Sampling.Adaptive

/-!
# Settings

One record that names a method and holds what any of them needs, the correlated pairs included. It
yields the settings of the single methods, the estimator of the named one and the correlation, and
it runs the estimator on a problem. The error of a run names the method.

Settings are accepted when the estimator of their method can be made, so that what only the other
methods use is not checked. Bounds and pairs of the correlation are not checked with them either:
they are a matter of the setup, which is made before a run and apart from it.

Some settings of single methods cannot be chosen here and keep their usual values, such as the
evaluations that a ray is allowed.
-/

namespace FailureProbability

namespace Settings

/-- The methods that can be named: six single ones, and chains of two. -/
inductive Method where
  | form
  | directionalSampling
  | crudeMonteCarlo
  | importanceSampling
  | adaptiveImportanceSampling
  | numericalIntegration
  | fdir
  | dsfi
  | dsfiHr
  | formDsfi
  | cmcForm
  | cmimForm
  deriving Repr, BEq, DecidableEq

/-- The name of a method in estimates and in errors. -/
def Method.name : Method → String
  | form => Form.name
  | directionalSampling => Directional.name
  | crudeMonteCarlo => Sampling.Crude.name
  | importanceSampling => Sampling.Importance.name
  | adaptiveImportanceSampling => Sampling.Adaptive.name
  | numericalIntegration => Grid.name
  | fdir => "FDIR"
  | dsfi => "DSFI"
  | dsfiHr => "DSFI-HR"
  | formDsfi => "FORM+DSFI"
  | cmcForm => "CMC-FORM"
  | cmimForm => "CMIM-FORM"

inductive CorrelationKind where
  /-- Nothing; all variables are independent. -/
  | identity
  /-- A correlation that refuses chains of full pairs. -/
  | gaussian
  /-- A correlation that resolves them. -/
  | robust
  deriving Repr, BEq, DecidableEq

end Settings

/-- The settings of a run. Whatever the method does not use is kept and ignored. -/
structure Settings (α : Type) where
  method : Settings.Method
  /-- The points that are evaluated together. -/
  threads : Nat
  form : Form.Config α
  minSamples : Nat
  /-- Without it every method has its own budget. -/
  maxSamples : Option Nat
  varCoeffFailure : α
  varCoeffNoFailure : α
  seed : UInt64
  generator : Random.Generator
  buffered : Bool
  chunkSize : Nat
  rayStep : α
  maxRayLength : α
  rootTolerance : α
  rayMethod : Root.Ray.Method
  offset : List α
  varianceFactor : α
  maxLoops : Nat
  minFailed : Nat
  balancedFraction : α
  varianceIncrease : α
  finalRunScale : α
  rawOffsetUpdate : Bool
  grid : Grid.Config α
  envelope : Envelope α
  correlation : Settings.CorrelationKind
  pairs : List (Correlation.Pair α)
  deriving Repr, BEq

namespace Settings

variable {α : Type} [Scalar α]

/-- Settings that name nothing but a method leave the rest as it is here. -/
def standard : Settings α :=
  let sampling : Sampling.Config α := .standard
  let directional : Directional.Config α := .standard
  let adaptive : Sampling.Adaptive.Config α := .standard
  { method := .form
    threads := 1
    form := .standard
    minSamples := sampling.minSamples
    maxSamples := none
    varCoeffFailure := sampling.varCoeffFailure
    varCoeffNoFailure := sampling.varCoeffNoFailure
    seed := sampling.seed
    generator := sampling.generator
    buffered := sampling.buffered
    chunkSize := sampling.chunkSize
    rayStep := directional.rayStep
    maxRayLength := directional.maxRayLength
    rootTolerance := directional.rootTolerance
    rayMethod := directional.rayMethod
    offset := []
    varianceFactor := 1
    maxLoops := adaptive.maxLoops
    minFailed := adaptive.minFailed
    balancedFraction := adaptive.balancedFraction
    varianceIncrease := adaptive.varianceIncrease
    finalRunScale := adaptive.finalRunScale
    rawOffsetUpdate := adaptive.rawOffsetUpdate
    grid := .standard
    envelope := .standard
    correlation := .identity
    pairs := [] }

/-! ## The settings of the single methods -/

/-- The settings of sampling, with the budget that applies when none is given. -/
def samplingConfig (s : Settings α) (budget : Nat) : Sampling.Config α :=
  ⟨s.minSamples, s.maxSamples.getD budget, s.varCoeffFailure, s.varCoeffNoFailure, s.seed,
    s.generator, s.buffered, s.chunkSize⟩

def crudeConfig (s : Settings α) : Sampling.Config α :=
  s.samplingConfig (Sampling.Config.standard : Sampling.Config α).maxSamples

def directionalConfig (s : Settings α) : Directional.Config α :=
  let usual : Directional.Config α := .standard
  { usual with
    sampling := s.samplingConfig usual.sampling.maxSamples
    rayStep := s.rayStep
    maxRayLength := s.maxRayLength
    rootTolerance := s.rootTolerance
    rayMethod := s.rayMethod }

def importanceConfig (s : Settings α) : Sampling.Importance.Config α :=
  ⟨s.crudeConfig, s.offset, s.varianceFactor⟩

def adaptiveConfig (s : Settings α) : Sampling.Adaptive.Config α :=
  ⟨s.crudeConfig, s.offset, s.varianceFactor, s.maxLoops, s.minFailed, s.balancedFraction,
    s.varianceIncrease, s.finalRunScale, s.rawOffsetUpdate⟩

/-! ## What they yield -/

def estimator (s : Settings α) : Except (Error α) (Estimator α) :=
  match s.method with
  | .form => Form.estimator s.form
  | .directionalSampling => Directional.estimator s.directionalConfig
  | .crudeMonteCarlo => Sampling.Crude.estimator s.crudeConfig
  | .importanceSampling => Sampling.Importance.estimator s.importanceConfig
  | .adaptiveImportanceSampling => Sampling.Adaptive.estimator s.adaptiveConfig
  | .numericalIntegration => Grid.estimator s.grid
  | .fdir => Estimator.fdir s.form s.directionalConfig s.envelope
  | .dsfi => Estimator.dsfi s.directionalConfig s.form
  | .dsfiHr => Estimator.dsfiHr s.directionalConfig s.form
  | .formDsfi => Estimator.formDsfi s.form s.directionalConfig s.envelope
  | .cmcForm => Estimator.cmcForm s.crudeConfig s.form
  | .cmimForm => Estimator.cmimForm s.importanceConfig s.form

/-- Accepts settings from which the estimator can be built. -/
def validate (s : Settings α) : Except (Error α) Unit := do
  let _ ← s.estimator
  return ()

def correlationOver (s : Settings α) (n : Nat) : Except (Error α) (Correlation α) :=
  match s.correlation with
  | .identity => .ok (.identity n)
  | .gaussian => Correlation.ofPairs n s.pairs
  | .robust => Correlation.ofChains n s.pairs

def run (s : Settings α) (setup : Setup α) (limitState : LimitState α) (monitor : Monitor α) :
    Run α (Estimate α) :=
  Run.named s.method.name do
    let e ← Run.ofExcept s.estimator
    e.estimate ⟨setup, limitState, s.threads, monitor⟩

end Settings

end FailureProbability

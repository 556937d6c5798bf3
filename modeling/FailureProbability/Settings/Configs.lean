import FailureProbability.Combination
import FailureProbability.Scalar.Double
import FailureProbability.Settings
import FailureProbability.Settings.Parts

/-!
# The settings of single methods in JSON

Every record has a default for each of its fields. A record inside another one that is given, but
lacks a field, takes the default of its own kind for it. Reading looks at the form only: settings
that make no sense are read like others, and refused when an estimator is made from them.
-/

namespace FailureProbability

open Json

def generatorNames : List (String × Random.Generator) :=
  [("std_rng", .chacha), ("small_rng", .xoshiro)]

/-- The settings of the first-order method among the fields of a record. -/
def Form.Config.ofFields? (fs : Fields) : Option (Form.Config Float) := do
  let d : Form.Config Float := .standard
  return {
    maxIterations := ← fs.getD "max_iterations" count? d.maxIterations
    relaxation := ← fs.getD "relaxation" double? d.relaxation
    epsBeta := ← fs.getD "eps_beta" double? d.epsBeta
    epsZ := ← fs.getD "eps_z" double? d.epsZ
    du := ← fs.getD "du" double? d.du
    trialLoops := ← fs.getD "trial_loops" count? d.trialLoops
    start := ← fs.getD "start" start? d.start }

def Form.Config.ofJson? (v : Json) : Option (Form.Config Float) :=
  fields? ["max_iterations", "relaxation", "eps_beta", "eps_z", "du", "trial_loops", "start"] v
    >>= ofFields?

def Sampling.Config.ofJson? (v : Json) : Option (Sampling.Config Float) := do
  let d : Sampling.Config Float := .standard
  let fs ← fields? ["min_samples", "max_samples", "var_coeff_failure", "var_coeff_no_failure",
    "seed", "generator", "buffered", "chunk_size"] v
  return {
    minSamples := ← fs.getD "min_samples" count? d.minSamples
    maxSamples := ← fs.getD "max_samples" count? d.maxSamples
    varCoeffFailure := ← fs.getD "var_coeff_failure" double? d.varCoeffFailure
    varCoeffNoFailure := ← fs.getD "var_coeff_no_failure" double? d.varCoeffNoFailure
    seed := (← fs.getD "seed" count? d.seed.toNat).toUInt64
    generator := ← fs.getD "generator" (choice? generatorNames) d.generator
    buffered := ← fs.getD "buffered" flag? d.buffered
    chunkSize := ← fs.getD "chunk_size" count? d.chunkSize }

def Sampling.Importance.Config.ofJson? (v : Json) : Option (Sampling.Importance.Config Float) := do
  let d : Sampling.Importance.Config Float := .standard
  let fs ← fields? ["sampling", "offset", "variance_factor"] v
  return {
    sampling := ← fs.getD "sampling" Sampling.Config.ofJson? d.sampling
    offset := ← fs.getD "offset" (list? double?) d.offset
    varianceFactor := ← fs.getD "variance_factor" double? d.varianceFactor }

def Sampling.Adaptive.Config.ofJson? (v : Json) : Option (Sampling.Adaptive.Config Float) := do
  let d : Sampling.Adaptive.Config Float := .standard
  let fs ← fields? ["sampling", "start_offset", "start_variance_factor", "max_loops", "min_failed",
    "balanced_fraction", "variance_increase", "final_run_scale", "raw_offset_update"] v
  return {
    sampling := ← fs.getD "sampling" Sampling.Config.ofJson? d.sampling
    startOffset := ← fs.getD "start_offset" (list? double?) d.startOffset
    startVarianceFactor := ← fs.getD "start_variance_factor" double? d.startVarianceFactor
    maxLoops := ← fs.getD "max_loops" count? d.maxLoops
    minFailed := ← fs.getD "min_failed" count? d.minFailed
    balancedFraction := ← fs.getD "balanced_fraction" double? d.balancedFraction
    varianceIncrease := ← fs.getD "variance_increase" double? d.varianceIncrease
    finalRunScale := ← fs.getD "final_run_scale" double? d.finalRunScale
    rawOffsetUpdate := ← fs.getD "raw_offset_update" flag? d.rawOffsetUpdate }

def Directional.Config.ofJson? (v : Json) : Option (Directional.Config Float) := do
  let d : Directional.Config Float := .standard
  let fs ← fields? ["sampling", "ray_step", "max_ray_length", "root_tolerance", "ray_method",
    "max_ray_evaluations"] v
  return {
    sampling := ← fs.getD "sampling" Sampling.Config.ofJson? d.sampling
    rayStep := ← fs.getD "ray_step" double? d.rayStep
    maxRayLength := ← fs.getD "max_ray_length" double? d.maxRayLength
    rootTolerance := ← fs.getD "root_tolerance" double? d.rootTolerance
    rayMethod := ← fs.getD "ray_method" rayMethod? d.rayMethod
    maxRayEvaluations := ← fs.getD "max_ray_evaluations" count? d.maxRayEvaluations }

/-- The settings of a grid among the fields of a record. -/
def Grid.Config.ofFields? (fs : Fields) : Option (Grid.Config Float) := do
  let d : Grid.Config Float := .standard
  return {
    minU := ← fs.getD "min_u" double? d.minU
    maxU := ← fs.getD "max_u" double? d.maxU
    cellCount := ← fs.getD "n_cells" count? d.cellCount }

def Grid.Config.ofJson? (v : Json) : Option (Grid.Config Float) :=
  fields? ["min_u", "max_u", "n_cells"] v >>= ofFields?

/-- The indices accepted from a first estimator, among the fields of a record. -/
def Envelope.ofFields? (fs : Fields) : Option (Envelope Float) := do
  let d : Envelope Float := .standard
  return {
    least := ← fs.getD "fd_threshold" double? d.least
    greatest := ← fs.getD "beta_max" double? d.greatest }

def Envelope.ofJson? (v : Json) : Option (Envelope Float) :=
  fields? ["fd_threshold", "beta_max"] v >>= ofFields?

def Conditional.Config.ofJson? (v : Json) : Option (Conditional.Config Float) := do
  let d : Conditional.Config Float := .standard
  let fs ← fields? ["rho_zero", "rho_limit", "form"] v
  return {
    rhoZero := ← fs.getD "rho_zero" double? d.rhoZero
    rhoLimit := ← fs.getD "rho_limit" double? d.rhoLimit
    form := ← fs.getD "form" Form.Config.ofJson? d.form }

def Combination.Config.ofJson? (v : Json) : Option (Combination.Config Float) := do
  let d : Combination.Config Float := .standard
  let fs ← fields? ["hohenbichler", "delta"] v
  return {
    conditional := ← fs.getD "hohenbichler" Conditional.Config.ofJson? d.conditional
    delta := ← fs.getD "delta" double? d.delta }

end FailureProbability

import FailureProbability.Json.Printer
import FailureProbability.Json.Reader
import FailureProbability.Settings.Configs

/-!
# Settings in JSON

A settings text is one flat record. Fields that are not given take their defaults, fields that are
not known are skipped. Settings are written with all their fields, in a fixed order and indented.

What was read is checked before it is handed out (`ofText`). What is written is not: settings with a
number that is not finite are written with nothing in its place, which does not read back.
-/

namespace FailureProbability

open Json

namespace Settings

def methodNames : List (String × Method) :=
  [("form", .form), ("directional_sampling", .directionalSampling),
    ("crude_monte_carlo", .crudeMonteCarlo), ("importance_sampling", .importanceSampling),
    ("adaptive_importance_sampling", .adaptiveImportanceSampling),
    ("numerical_integration", .numericalIntegration), ("fdir", .fdir), ("dsfi", .dsfi),
    ("dsfi_hr", .dsfiHr), ("form_dsfi", .formDsfi), ("cmc_form", .cmcForm),
    ("cm_im_form", .cmimForm)]

def correlationNames : List (String × CorrelationKind) :=
  [("identity", .identity), ("gaussian", .gaussian), ("robust", .robust)]

def fieldNames : List String :=
  ["method", "n_threads", "max_iterations", "relaxation", "eps_beta", "eps_z", "du", "trial_loops",
    "start", "min_samples", "max_samples", "var_coeff_failure", "var_coeff_no_failure", "seed",
    "generator", "buffered", "chunk_size", "ray_step", "max_ray_length", "root_tolerance",
    "ray_method", "offset", "variance_factor", "max_loops", "min_failed", "balanced_fraction",
    "variance_increase", "final_run_scale", "raw_offset_update", "min_u", "max_u", "n_cells",
    "fd_threshold", "beta_max", "correlation", "correlation_pairs"]

/-! ## Reading -/

def pair? (v : Json) : Option (Correlation.Pair Float) := do
  let fs ← fields? ["i", "j", "rho"] v
  return ⟨← fs.get? "i" count?, ← fs.get? "j" count?, ← fs.get? "rho" double?⟩

/-- The settings in a JSON value; they may not make sense. -/
def ofJson? (v : Json) : Option (Settings Float) := do
  let d : Settings Float := .standard
  let fs ← fields? fieldNames v
  return {
    method := ← fs.getD "method" (choice? methodNames) d.method
    threads := ← fs.getD "n_threads" count? d.threads
    form := ← Form.Config.ofFields? fs
    minSamples := ← fs.getD "min_samples" count? d.minSamples
    maxSamples := ← fs.getD "max_samples" (optional? count?) d.maxSamples
    varCoeffFailure := ← fs.getD "var_coeff_failure" double? d.varCoeffFailure
    varCoeffNoFailure := ← fs.getD "var_coeff_no_failure" double? d.varCoeffNoFailure
    seed := (← fs.getD "seed" count? d.seed.toNat).toUInt64
    generator := ← fs.getD "generator" (choice? generatorNames) d.generator
    buffered := ← fs.getD "buffered" flag? d.buffered
    chunkSize := ← fs.getD "chunk_size" count? d.chunkSize
    rayStep := ← fs.getD "ray_step" double? d.rayStep
    maxRayLength := ← fs.getD "max_ray_length" double? d.maxRayLength
    rootTolerance := ← fs.getD "root_tolerance" double? d.rootTolerance
    rayMethod := ← fs.getD "ray_method" rayMethod? d.rayMethod
    offset := ← fs.getD "offset" (list? double?) d.offset
    varianceFactor := ← fs.getD "variance_factor" double? d.varianceFactor
    maxLoops := ← fs.getD "max_loops" count? d.maxLoops
    minFailed := ← fs.getD "min_failed" count? d.minFailed
    balancedFraction := ← fs.getD "balanced_fraction" double? d.balancedFraction
    varianceIncrease := ← fs.getD "variance_increase" double? d.varianceIncrease
    finalRunScale := ← fs.getD "final_run_scale" double? d.finalRunScale
    rawOffsetUpdate := ← fs.getD "raw_offset_update" flag? d.rawOffsetUpdate
    grid := ← Grid.Config.ofFields? fs
    envelope := ← Envelope.ofFields? fs
    correlation := ← fs.getD "correlation" (choice? correlationNames) d.correlation
    pairs := ← fs.getD "correlation_pairs" (list? pair?) d.pairs }

def ofJson (v : Json) : Except (Error Float) (Settings Float) :=
  match ofJson? v with
  | some s => .ok s
  | none => .error .json

def checked (s : Settings Float) : Except (Error Float) (Settings Float) := do
  s.validate
  return s

def ofText (text : String) : Except (Error Float) (Settings Float) :=
  match Json.read text with
  | some v => ofJson v >>= checked
  | none => .error .json

/-- The settings in the text of a file, if there is one. -/
def ofFile (contents : Option String) : Except (Error Float) (Settings Float) :=
  match contents with
  | some t => ofText t
  | none => .error .unreadable

/-! ## Writing -/

def values (s : Settings Float) : List Json :=
  let doubles (xs : List Float) : Json := .array (xs.map ofDouble)
  let pair (p : Correlation.Pair Float) :=
    ofMembers [("i", ofCount p.i), ("j", ofCount p.j), ("rho", ofDouble p.rho)]
  [ofString (nameOf methodNames s.method), ofCount s.threads, ofCount s.form.maxIterations,
    ofDouble s.form.relaxation, ofDouble s.form.epsBeta, ofDouble s.form.epsZ, ofDouble s.form.du,
    ofCount s.form.trialLoops, startJson s.form.start, ofCount s.minSamples,
    (s.maxSamples.map ofCount).getD .null, ofDouble s.varCoeffFailure,
    ofDouble s.varCoeffNoFailure, ofCount s.seed.toNat,
    ofString (nameOf generatorNames s.generator), .bool s.buffered, ofCount s.chunkSize,
    ofDouble s.rayStep, ofDouble s.maxRayLength, ofDouble s.rootTolerance,
    rayMethodJson s.rayMethod, doubles s.offset, ofDouble s.varianceFactor, ofCount s.maxLoops,
    ofCount s.minFailed, ofDouble s.balancedFraction, ofDouble s.varianceIncrease,
    ofDouble s.finalRunScale, .bool s.rawOffsetUpdate, ofDouble s.grid.minU, ofDouble s.grid.maxU,
    ofCount s.grid.cellCount, ofDouble s.envelope.least, ofDouble s.envelope.greatest,
    ofString (nameOf correlationNames s.correlation), .array (s.pairs.map pair)]

def toText (s : Settings Float) : String :=
  Json.pretty 0 (ofMembers (fieldNames.zip s.values))

end Settings

end FailureProbability

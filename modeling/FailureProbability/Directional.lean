import FailureProbability.Estimator
import FailureProbability.Radius
import FailureProbability.Root.Ray
import FailureProbability.Sampling.Supply
import FailureProbability.Sampling.Tally

/-!
# Directional sampling

Along a random direction the limit state is searched for its first crossing. The direction then
contributes the probability that a point on it lies beyond the crossing, or before it when the
origin fails; a direction without a crossing lies on one side as a whole. The failure probability is
the mean contribution. Directions are searched several at a time and tallied in the order in which
they were drawn.

Only the first crossing counts: a ray that enters the failure domain, leaves it and enters it again
is taken to fail from the first crossing on. Which side it begins on is told by the first value
along it that is not zero, that of the origin included, and not by the crossing; the state of a
search holds this value beside the run (`alongRay`).

Whether a search has converged is not looked at. A ray whose evaluations ended before its grid did
is counted by what was found, like any other (`contribution`), and the estimate does not show it.
-/

namespace FailureProbability

namespace Directional

structure Config (α : Type) where
  sampling : Sampling.Config α
  rayStep : α
  /-- The greatest distance searched. -/
  maxRayLength : α
  rootTolerance : α
  rayMethod : Root.Ray.Method
  /-- The evaluations allowed per ray. -/
  maxRayEvaluations : Nat
  deriving Repr, BEq

variable {α : Type} [Scalar α]

namespace Config

def standard : Config α :=
  ⟨{ Sampling.Config.standard with maxSamples := 100000 }, 3, 20, 1e-3,
    .robust .andersonBjorck, 100⟩

/-- The usual settings of a fine march that ends on the failing side. -/
def firstNegative : Config α :=
  { standard with rayMethod := .linearLoop .firstNegative, rayStep := 0.5 }

def validate (c : Config α) : Except (Error α) Unit := do
  c.sampling.validate
  for (name, v) in [("ray_step", c.rayStep), ("max_ray_length", c.maxRayLength),
      ("root_tolerance", c.rootTolerance)] do
    if !Scalar.isPositive v then throw (.invalid (.notPositive name v))
  if c.maxRayEvaluations = 0 then throw (.invalid (.zeroCount "max_ray_evaluations"))

def ray (c : Config α) : Root.Ray α :=
  ⟨c.rayStep, c.maxRayLength, c.rootTolerance, c.rayMethod, c.maxRayEvaluations⟩

end Config

def name : String := "DirectionalSampling"

/-! ## One direction -/

/-- What a direction contributes, and the distance of its crossing. -/
structure Contribution (α : Type) where
  probability : α
  radius : Option α
  deriving Repr, BEq

/-- The contribution of a direction of an `n`-dimensional space; `side` is the first value on the
ray that is not zero, if there is one. -/
def contribution (n : Nat) (side : Option α) (root : Option (Root.Point α)) : Contribution α :=
  let fails := side.any fun z => decide (z < 0)
  match root with
  | some p =>
    ⟨if fails then Radius.nonExceedance n p.x else Radius.exceedance n p.x, some p.x⟩
  | none => ⟨if fails then 1 else 0, none⟩

/-- The first value that is not zero. -/
def noteSide (side : Option α) (z : α) : Option α :=
  if side.isNone && !(z == 0) then some z else side

/-- The value of the limit state at a distance along a direction; it is noted if it is the first
one that is not zero. -/
def alongRay (m : Model α) (direction : List α) (r : α) :
    RunWith (Option α) α α := do
  let z ← RunWith.lift (m.z (Coordinates.scale r direction))
  modify fun side => noteSide side z
  return z

/-- Searches a direction, where `z0` is the value at the origin. -/
def search (c : Config α) (m : Model α) (z0 : α) (direction : List α) :
    Run α (Contribution α) :=
  ExceptT.mk do
    let (found, side) ← (c.ray.find z0 (alongRay m direction)).run.run (noteSide none z0)
    return found.map fun s => contribution direction.length side s.root

/-! ## Statistics -/

structure Tally (α : Type) where
  count : Nat
  sum : α
  squares : α
  /-- The sum of the crossings, weighted by their contributions. -/
  weightedPoint : List α
  weight : α
  deriving Repr, BEq

namespace Tally

def empty (n : Nat) : Tally α := ⟨0, 0, 0, Coordinates.origin n, 0⟩

def add (t : Tally α) (direction : List α) (c : Contribution α) : Tally α :=
  let w := c.probability
  let counted : Tally α :=
    { t with count := t.count + 1, sum := t.sum + w, squares := t.squares + w * w }
  match c.radius with
  | some r =>
    { counted with
      weightedPoint := Coordinates.addScaled (w * r) t.weightedPoint direction
      weight := t.weight + w }
  | none => counted

def pf (t : Tally α) : α := if t.count = 0 then 0 else t.sum / Scalar.ofNat t.count

def deviation (t : Tally α) : α :=
  if t.count < 2 then Scalar.infinity
  else
    let n := Scalar.ofNat t.count
    Scalar.sqrt (Scalar.max (t.squares - n * t.pf * t.pf) 0 / (n - 1) / n)

def covarFailure (t : Tally α) : α :=
  if 0 < t.pf then t.deviation / t.pf else Scalar.infinity

def covarNoFailure (t : Tally α) : α :=
  if t.pf < 1 then t.deviation / (1 - t.pf) else Scalar.infinity

def direction (t : Tally α) : Direction α :=
  let beta := Sampling.betaOf t.pf
  if 0 < t.weight then
    Direction.ofPointAndBeta (Coordinates.divide t.weightedPoint t.weight) beta
  else Direction.isotropic t.weightedPoint.length beta

end Tally

/-! ## The run -/

variable {σ : Type} [RandomSource σ α]

/-- A random direction; a vector without a length is drawn again. After so many tries in vain the
direction is the origin itself; a stream of random numbers never gets there. -/
def drawDirection (n : Nat) : Nat → Sampling.Sampler σ α (List α)
  | 0 => return Coordinates.origin n
  | tries + 1 => do
    let v ← Sampling.Sampler.draw n
    let length := Coordinates.norm v
    if 0 < length then return Coordinates.divide v length else drawDirection n tries

def drawDirections (n : Nat) : Nat → Sampling.Sampler σ α (List (List α))
  | 0 => return []
  | count + 1 => do
    let d ← drawDirection n Random.tries
    return d :: (← drawDirections n count)

/-- Tallies searched directions until the run settles. -/
def consume (c : Config α) (m : Model α) :
    List (List α × Contribution α) → Tally α → Run α (Tally α × Option Status)
  | [], t => return (t, none)
  | (d, r) :: rest, t => do
    let t := t.add d r
    match ← c.sampling.settle m t.count t.pf t.covarFailure t.covarNoFailure with
    | some status => return (t, some status)
    | none => consume c m rest t

/-- Draws, searches and tallies directions until the run settles. -/
def rounds (c : Config α) (m : Model α) (z0 : α) :
    Nat → Tally α → Sampling.Sampler σ α (Tally α × Status)
  | 0, t => return (t, .noConvergence)
  | fuel + 1, t => do
    let directions ← drawDirections m.dimension
      (Nat.min (c.sampling.chunk m.threads) (c.sampling.maxSamples - t.count))
    -- All are searched before the first is tallied; what the last ones took is not given back.
    let found ← Sampling.Sampler.lift (directions.mapM (search c m z0))
    match ← Sampling.Sampler.lift (consume c m (directions.zip found) t) with
    | (t, some status) => return (t, status)
    | (t, none) => rounds c m z0 fuel t

def estimateOn (c : Config α) (m : Model α) (source : σ) : Run α (Estimate α) := do
  let before ← Run.evaluations
  let z0 ← m.z (Coordinates.origin m.dimension)
  let (t, status) ← Sampling.Sampler.withSupply (Sampling.Supply.fresh source false)
    (rounds c m z0 c.sampling.fuel (.empty m.dimension))
  let d := t.direction
  let u := d.designPoint
  let x ← Run.ofExcept (m.x u)
  let after ← Run.evaluations
  return ⟨status, d, x, u, name, t.count, after - before⟩

/-- The estimate from the directions of the settings' source. -/
def estimate (c : Config α) (m : Model α) : Run α (Estimate α) :=
  estimateOn c m c.sampling.source

def estimator (c : Config α) : Except (Error α) (Estimator α) := do
  c.validate
  return .unseeded name (estimate c)

end Directional

end FailureProbability

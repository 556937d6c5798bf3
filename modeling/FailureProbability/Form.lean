import FailureProbability.Estimator
import FailureProbability.Form.Start

/-!
# The first-order method

The search for the design point. At every point the limit state is replaced by its tangent plane,
and the point moves part of the way to the design point of the plane; the share is the relaxation. A
search that does not converge is tried again from its start with half the relaxation. When none
converges, the estimate is the mean of the last points.

A trial has converged when the point is near the limit state and near the design point of its own
tangent plane, both measured in units of the gradient (`zResidual`, `betaResidual`). A point without
a tangent plane ends its trial, and this is not reported: reports are made of planes. The next trial
begins at the same start, so that it may well meet the same point again.

Nothing is supposed of the limit state. It is evaluated at the points of the search and beside them,
and a value that is not finite at a point is an error; the search does not go round it.
-/

namespace FailureProbability

namespace Form

/-- How far a search for the design point goes, and how near it has to come. -/
structure Config (α : Type) where
  maxIterations : Nat
  /-- The share of the way to the next design point, above zero and at most one. -/
  relaxation : α
  /-- The tolerance for the distance from the design point. -/
  epsBeta : α
  /-- The tolerance for the distance from the limit state. -/
  epsZ : α
  du : α
  trialLoops : Nat
  start : Start α
  deriving Repr, BEq

variable {α : Type} [Scalar α]

namespace Config

def standard : Config α := ⟨50, 0.75, 0.01, 0.01, 0.3, 1, .zero⟩

def validate (c : Config α) : Except (Error α) Unit := do
  if c.maxIterations = 0 then throw (.invalid (.zeroCount "FORM max_iterations"))
  if ¬(0 < c.relaxation ∧ c.relaxation ≤ 1) then throw (.invalid (.relaxation c.relaxation))
  for (name, v) in [("eps_beta", c.epsBeta), ("eps_z", c.epsZ), ("du", c.du)] do
    if !Scalar.isPositive v then throw (.invalid (.notPositive ("FORM " ++ name) v))
  if c.trialLoops = 0 then throw (.invalid .noTrials)

end Config

def name : String := "FORM"

/-- A gradient shorter than this counts as zero. -/
def gradientFloor : α := 1e-10

def window : Nat := 10

/-- A point and the reliability index of the tangent plane there. -/
abbrev Visit (α : Type) := List α × α

/-- How far a trial has come: its next point, the last points with a tangent plane, the oldest
first, and the direction of the last plane. -/
structure Trial (α : Type) where
  u : List α
  visits : List (Visit α)
  last : Option (Direction α)
  deriving Repr, BEq

def finish (m : Model α) (status : Status) (direction : Direction α) (u : List α)
    (steps evaluations : Nat) : Run α (Estimate α) := do
  let x ← Run.ofExcept (m.x u)
  return ⟨status, direction, x, u, name, steps, evaluations⟩

/-- The reliability index and direction of the tangent plane at a point, where `sigma` is the
length of the gradient. -/
def tangent (g : Gradient α) (u : List α) (sigma : α) : Direction α :=
  ⟨(g.z - Coordinates.dot g.slope u) / sigma, Coordinates.divide g.slope sigma⟩

/-- The direction where there is no tangent plane: the last one, or else none in particular and
as far from failure, or from safety, as can be. -/
def withoutTangent (t : Trial α) (z : α) : Direction α :=
  t.last.getD (Direction.isotropic t.u.length (if z < 0 then -Normal.betaMax else Normal.betaMax))

def zResidual (g : Gradient α) (sigma : α) : α := Scalar.abs (g.z / sigma)

/-- The distance of a point from the sphere through the design point. -/
def betaResidual (beta : α) (u : List α) : α :=
  Scalar.abs (beta * beta - Coordinates.dot u u) / Scalar.max (beta * beta) 1

/-- The last points with one more, the oldest dropped when there are enough. -/
def remember (visits : List (Visit α)) (v : Visit α) : List (Visit α) :=
  (if visits.length = window then visits.drop 1 else visits) ++ [v]

/-- The point part of the way to the design point of a direction. -/
def relax (relaxation : α) (u : List α) (direction : Direction α) : List α :=
  List.zipWith (fun a b => (1 - relaxation) * a + relaxation * b) u direction.designPoint

def meanPoint (visits : List (Visit α)) : List α :=
  let k : α := Scalar.ofNat (Nat.max visits.length 1)
  let n := (visits.head?.map fun v => v.1.length).getD 0
  visits.foldl (fun mean v => List.zipWith (fun a b => a + b / k) mean v.1) (Coordinates.origin n)

def meanBeta (visits : List (Visit α)) : α :=
  let k : α := Scalar.ofNat (Nat.max visits.length 1)
  visits.foldl (fun mean v => mean + v.2 / k) 0

/-- The direction whose design point is the mean of the last points, on the side of the mean
reliability index. If the mean is the origin, the last direction with the mean index. -/
def extrapolate (visits : List (Visit α)) (last : Option (Direction α)) : Direction α :=
  let mean := meanPoint visits
  let r := Coordinates.norm mean
  if 0 < r then
    -- A point alone does not tell the sides of the origin apart; the mean index does.
    let beta := if meanBeta visits < 0 then -r else r
    ⟨beta, mean.map fun v => -v / beta⟩
  else
    match last with
    | some d => d.withBeta (meanBeta visits)
    | none => Direction.isotropic mean.length (meanBeta visits)

/-- Goes through the remaining points of a trial, after so many steps and evaluations. -/
def iterate (m : Model α) (c : Config α) (relaxation : α) :
    Nat → Nat → Nat → Trial α → Run α (Estimate α)
  | 0, steps, evaluations, t =>
    let d := extrapolate t.visits t.last
    finish m .noConvergence d d.designPoint steps evaluations
  | remaining + 1, steps, evaluations, t => do
    let g ← m.gradient t.u c.du
    let evaluations := evaluations + g.evaluations
    let steps := steps + 1
    let sigma := Coordinates.norm g.slope
    if sigma < gradientFloor then
      -- No tangent plane, and nothing to report.
      finish m .noConvergence (withoutTangent t g.z) t.u steps evaluations
    else
      let d := tangent g t.u sigma
      let zr := zResidual g sigma
      let br := betaResidual d.beta t.u
      if ← m.report ⟨steps, c.maxIterations, d.beta, Scalar.max zr br⟩ then
        finish m .abortedByUser d t.u steps evaluations
      else if zr < c.epsZ ∧ br < c.epsBeta then
        finish m .success d t.u steps evaluations
      else
        iterate m c relaxation remaining steps evaluations
          ⟨relax relaxation t.u d, remember t.visits (t.u, d.beta), some d⟩

def trial (m : Model α) (c : Config α) (start : List α) (relaxation : α) : Run α (Estimate α) :=
  iterate m c relaxation c.maxIterations 0 0 ⟨start, [], none⟩

/-- A trial, and as many further ones as are left while none converges, each with half the
relaxation. Steps and evaluations of all trials count. -/
def trials (m : Model α) (c : Config α) (start : List α) :
    Nat → Nat → Nat → α → Run α (Estimate α)
  | left, steps, evaluations, relaxation => do
    let e ← trial m c start relaxation
    let e := { e with steps := steps + e.steps, evaluations := evaluations + e.evaluations }
    match left with
    | 0 => return e
    | left + 1 =>
      -- A trial that was stopped is the last one, too.
      if e.status ≠ .noConvergence then return e
      else trials m c start left e.steps e.evaluations (relaxation * 0.5)

def estimateFrom (c : Config α) (start : List α) (m : Model α) : Run α (Estimate α) :=
  if start.length ≠ m.dimension then throw (.invalid (.startSize start.length m.dimension))
  else trials m c start (c.trialLoops - 1) 0 0 c.relaxation

/-- The estimate from the start point that the settings choose. -/
def estimate (c : Config α) (m : Model α) : Run α (Estimate α) := do
  let start ← c.start.find m
  let e ← estimateFrom c start.u m
  return { e with evaluations := e.evaluations + start.evaluations }

/-- The estimate from the design point of an earlier one, if that is a point of the model. -/
def estimateAfter (c : Config α) (earlier : Estimate α) (m : Model α) : Run α (Estimate α) :=
  if earlier.u.length = m.dimension ∧ Coordinates.allFinite earlier.u = true then
    estimateFrom c earlier.u m
  else estimate c m

def estimator (c : Config α) : Except (Error α) (Estimator α) := do
  c.validate
  return ⟨name, estimate c, estimateAfter c⟩

end Form

end FailureProbability

import FailureProbability.Form

/-!
# The conditional probability of two events

Two standard-normal variables with a correlation exceed two bounds. The probability that the second
exceeds its bound when the first does is the failure probability of a limit state in two independent
variables, one of which spans the tail of the first, and is found by the first-order method. Nearly
independent variables are taken as independent; towards full correlation the probability is
interpolated to its exact value there.

The limit state is not linear, so that the probability is an approximation, and it is taken also
from a search that has not converged (`Probability.converged` tells). The search runs from the
origin, one point at a time and with a silent monitor: nothing of it is reported, and its
evaluations are returned with the probability, as they are none of the model that the events come
from.
-/

namespace FailureProbability

namespace Conditional

structure Config (α : Type) where
  /-- Correlations below this count as none. -/
  rhoZero : α
  /-- Beyond this the probability is interpolated. -/
  rhoLimit : α
  form : Form.Config α
  deriving Repr, BEq

structure Probability (α : Type) where
  probability : α
  /-- The first-order method has converged. -/
  converged : Bool
  evaluations : Nat
  deriving Repr, BEq

variable {α : Type} [Scalar α]

namespace Config

def standard : Config α :=
  ⟨1e-10, 0.99999, { Form.Config.standard with
    epsBeta := 1e-4, epsZ := 1e-4, du := 1e-3, relaxation := 1, trialLoops := 4 }⟩

def validate (c : Config α) : Except (Error α) Unit := do
  if ¬(0 ≤ c.rhoZero ∧ c.rhoZero < c.rhoLimit ∧ c.rhoLimit < 1) then
    throw (.invalid (.correlationLimits c.rhoZero c.rhoLimit))
  c.form.validate

end Config

/-- The margin of the second variable, where `w1` spans the tail of mass `q1` of the first. -/
def margin (q1 beta2 rho w1 w2 : α) : α :=
  beta2 - rho * Normal.betaFromQ (q1 * Normal.cdf (-w1)) - Scalar.sqrt (1 - rho * rho) * w2

/-- The margin as a limit state of two standard-normal variables. -/
def limitState (q1 beta2 rho : α) : LimitState α := fun d =>
  d.ask do
    let w1 ← Draw.value 0
    let w2 ← Draw.value 1
    return margin q1 beta2 rho w1 w2

def solve (c : Config α) (q1 beta2 rho : α) : Except (Error α) (Probability α) := do
  let setup ← Setup.independent [Marginal.standardNormal, Marginal.standardNormal]
  let m : Model α := ⟨setup, limitState q1 beta2 rho, 1, Monitor.silent⟩
  c.form.validate
  let e ← ((Form.estimateFrom c.form [0, 0] m).run Journal.empty).1
  return ⟨e.failureProbability, e.converged, e.evaluations⟩

/-- The mass between two bounds, accurate in both tails. -/
def massBetween (a b : α) : α :=
  if b ≤ a then 0
  else if 0 ≤ a then Normal.cdf (-a) - Normal.cdf (-b)
  else if b ≤ 0 then Normal.cdf b - Normal.cdf a
  else 1 - Normal.cdf a - Normal.cdf (-b)

/-- The exact probability for a full correlation of the given sign. -/
def fullyCorrelated (beta1 beta2 sign : α) : α :=
  if 0 < sign then Normal.cdf (-Scalar.max beta1 beta2) / Normal.cdf (-beta1)
  else massBetween beta1 (-beta2) / Normal.cdf (-beta1)

/-- The probability that the second variable exceeds `beta2` when the first exceeds `beta1`. -/
def probability (c : Config α) (beta1 beta2 rho : α) : Except (Error α) (Probability α) :=
  if Scalar.isFinite beta1 = false ∨ Scalar.isFinite beta2 = false then
    .error (.invalid (.unboundedEvents beta1 beta2))
  else if Scalar.isFinite rho = false ∨ 1 + 1e-10 < Scalar.abs rho then
    .error (.invalid (.eventCoefficient rho))
  else
    let q1 := Normal.cdf (-beta1)
    if Scalar.abs rho < c.rhoZero ∨ q1 ≤ 0 then .ok ⟨Normal.cdf (-beta2), true, 0⟩
    else if c.rhoLimit < Scalar.abs rho then do
      -- From the limit on, the margin is too flat; the exact probability at one end helps out.
      let sign := Scalar.signum rho
      let atLimit ← solve c q1 beta2 (sign * c.rhoLimit)
      let exact := fullyCorrelated beta1 beta2 sign
      let t := Scalar.min ((Scalar.abs rho - c.rhoLimit) / (1 - c.rhoLimit)) 1
      let p := atLimit.probability + t * (exact - atLimit.probability)
      return { atLimit with probability := Scalar.clamp p 0 1 }
    else solve c q1 beta2 rho

end Conditional

end FailureProbability

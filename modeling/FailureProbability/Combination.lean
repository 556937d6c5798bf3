import FailureProbability.Combination.Conditional

/-!
# Combining events

Failure events over the same variables are combined into one equivalent event: that both occur, or
that at least one does. The probability follows from the conditional one; the influence coefficients
follow from the change of the combined index when a variable is moved. Lists are combined from the
left or as a balanced tree.

An event is known here by its index and its coefficients only. Two events are taken for half-spaces,
whose correlation is the inner product of the coefficients, weighted by the correlation that each
variable has with itself between the two events. The combination of two half-spaces is no
half-space; what is returned is the one of the same probability. For three events and more the
outcome depends on the order in which they are combined, and the two orders of this module give
different ones.

Two places keep the probability where it has to be, as the conditional one is an approximation: the
joint probability is at most that of either event, and that of the union is at least that of each.
-/

namespace FailureProbability

namespace Combination

inductive Rule where
  | and
  | or
  deriving Repr, BEq, DecidableEq

structure Config (α : Type) where
  conditional : Conditional.Config α
  /-- The step by which a variable is moved. -/
  delta : α
  deriving Repr, BEq

variable {α : Type} [Scalar α]

namespace Config

def standard : Config α := ⟨.standard, 0.05⟩

def validate (c : Config α) : Except (Error α) Unit := do
  if !Scalar.isPositive c.delta then
    throw (.invalid (.notPositive "combination delta" c.delta))
  c.conditional.validate

end Config

/-- Accepts two events over the same variables with a coefficient for each of these. -/
def checkLengths (a b : Direction α) (rho : List α) : Except (Error α) Unit :=
  if a.alpha.length ≠ b.alpha.length ∨ rho.length ≠ a.alpha.length then
    .error (.invalid (.eventSize a.alpha.length b.alpha.length rho.length))
  else
    match rho.find? fun r => !decide (Scalar.abs r ≤ 1) with
    | some r => .error (.invalid (.variableCoefficient r))
    | none => .ok ()

/-- The correlation of two events, where `rho` has that of each variable as the two see it. -/
def correlation (a b : Direction α) (rho : List α) : Except (Error α) α := do
  checkLengths a b rho
  let products := List.zipWith (· * ·) (List.zipWith (· * ·) a.alpha b.alpha) rho
  return Scalar.clamp (Coordinates.sum products) (-1) 1

/-- The probability that two events with the given indices and correlation both occur. The more
probable event is the condition. -/
def joint (c : Conditional.Config α) (betaA betaB rho : α) : Except (Error α) α := do
  let qa := Normal.cdf (-betaA)
  let qb := Normal.cdf (-betaB)
  let given (x y : α) := (Conditional.probability c x y rho).map (·.probability)
  let both ← if qb ≤ qa then (qa * ·) <$> given betaA betaB else (qb * ·) <$> given betaB betaA
  -- An approximate conditional probability may exceed what the events allow.
  return Scalar.min both (Scalar.min qa qb)

/-- The probability of the combination of two events with the given indices and correlation. -/
def probability (c : Conditional.Config α) (rule : Rule) (betaA betaB rho : α) :
    Except (Error α) α := do
  let qa := Normal.cdf (-betaA)
  let qb := Normal.cdf (-betaB)
  let both ← joint c betaA betaB rho
  return match rule with
    | .and => both
    | .or => Scalar.clamp (qa + qb - both) (Scalar.max qa qb) 1

/-- The change of the combined index when one variable is moved, whose coefficients are `alphaA`
and `alphaB` and whose correlation is `r`. -/
def sensitivity (c : Config α) (rule : Rule) (a b : Direction α) (rho beta : α)
    (alphaA alphaB r : α) : Except (Error α) α := do
  let betaA := a.beta + alphaA * c.delta
  let betaB := b.beta + alphaB * r * c.delta
  let q ← probability c.conditional rule betaA betaB rho
  return (Normal.betaFromQ q - beta) / c.delta

def dominant (rule : Rule) (a b : Direction α) : Direction α :=
  match rule with
  | .and => if b.beta ≤ a.beta then a else b
  | .or => if b.beta ≤ a.beta then b else a

/-- The event equivalent to the combination of two. Where the index has no bound or does not change
with any variable, the coefficients are those of the dominant event. -/
def two (c : Config α) (rule : Rule) (rho : List α) (a b : Direction α) :
    Except (Error α) (Direction α) := do
  c.validate
  let r ← correlation a b rho
  let q ← probability c.conditional rule a.beta b.beta r
  let beta := Normal.betaFromQ q
  let alpha ← (a.alpha.zip (b.alpha.zip rho)).mapM fun (alphaA, alphaB, ri) =>
    sensitivity c rule a b r beta alphaA alphaB ri
  if Normal.betaMax ≤ Scalar.abs beta ∨ (Coordinates.norm alpha == 0) = true then
    return (dominant rule a b).withBeta beta
  else return Direction.normalized ⟨beta, alpha⟩

/-- The event equivalent to the combination of a list, from the left. -/
def multiple (c : Config α) (rule : Rule) (rho : List α) :
    List (Direction α) → Except (Error α) (Direction α)
  | [] => .error (.invalid .noEvents)
  | first :: rest => rest.foldlM (two c rule rho) first

/-- The event equivalent to the combination of a list, by halves. -/
def tree (c : Config α) (rule : Rule) (rho : List α) :
    List (Direction α) → Except (Error α) (Direction α)
  | [] => .error (.invalid .noEvents)
  | [event] => .ok event
  | a :: b :: rest => do
    let events := a :: b :: rest
    let half := events.length / 2
    let left ← tree c rule rho (events.take half)
    let right ← tree c rule rho (events.drop half)
    two c rule rho left right
termination_by events => events.length
decreasing_by
  · simp only [List.length_take, List.length_cons]; omega
  · simp only [List.length_drop, List.length_cons]; omega

end Combination

end FailureProbability

import FailureProbability.Estimator
import FailureProbability.Sampling.Engine

/-!
# Importance sampling

Samples of a density with a fixed offset. After an earlier estimate, and without an offset of its
own, the density lies around the design point of that estimate.

A point of another dimension, or with a coordinate that is not finite, is passed over and the
density lies around the origin; an offset of the settings that does not fit the model is an error.
-/

namespace FailureProbability.Sampling.Importance

structure Config (α : Type) where
  sampling : Sampling.Config α
  /-- The centre of the density; none stands for the origin. -/
  offset : List α
  /-- The variance factor of all variables. -/
  varianceFactor : α
  deriving Repr, BEq

variable {α : Type} [Scalar α]

namespace Config

def standard : Config α := ⟨.standard, [], 1⟩

def validate (c : Config α) : Except (Error α) Unit := do
  c.sampling.validate
  if !Scalar.isPositive c.varianceFactor then
    throw (.invalid (.notPositive "variance_factor" c.varianceFactor))

/-- The density for `n` variables, around a given centre or that of the settings. -/
def density (c : Config α) (n : Nat) (centre : Option (List α)) : Except (Error α) (Density α) :=
  let offset := centre.getD (if c.offset.isEmpty then Coordinates.origin n else c.offset)
  if offset.length ≠ n then .error (.invalid (.offsetSize offset.length n))
  else Density.new offset (List.replicate n c.varianceFactor)

end Config

def name : String := "ImportanceSampling"

/-- The estimate from samples of a density; its direction is that of their weighted mean. -/
def estimateWith (c : Config α) (d : Density α) (m : Model α) : Run α (Estimate α) := do
  let o ← runFresh m c.sampling d
  o.estimate m name .weightedMean

def estimate (c : Config α) (m : Model α) : Run α (Estimate α) := do
  let d ← Run.ofExcept (c.density m.dimension none)
  estimateWith c d m

/-- The centre that an earlier estimate gives: its design point, unless the settings have an offset
or the point is none of the model. -/
def centreOf (c : Config α) (m : Model α) (earlier : Estimate α) : Option (List α) :=
  if c.offset.isEmpty && earlier.u.length == m.dimension && Coordinates.allFinite earlier.u then
    some earlier.u
  else none

/-- The estimate around the design point of an earlier one. -/
def estimateAfter (c : Config α) (earlier : Estimate α) (m : Model α) : Run α (Estimate α) := do
  let d ← Run.ofExcept (c.density m.dimension (centreOf c m earlier))
  estimateWith c d m

def estimator (c : Config α) : Except (Error α) (Estimator α) := do
  c.validate
  return ⟨name, estimate c, estimateAfter c⟩

end FailureProbability.Sampling.Importance

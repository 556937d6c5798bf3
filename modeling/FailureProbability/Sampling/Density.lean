import FailureProbability.Coordinates
import FailureProbability.Error

/-!
# Sampling densities

Samples are drawn from independent normal densities with an offset and a variance factor per
variable. A sample carries the ratio of the standard-normal density to the one it was drawn from.

The ratio is found from the standard-normal vector and not from the sample, coordinate by coordinate
and as a logarithm, so that it neither overflows nor loses its small values before the end. A
density that was made by `new` has variances above zero; one that is written down need not.
-/

namespace FailureProbability

namespace Sampling

structure Density (α : Type) where
  offset : List α
  varianceFactor : List α
  deriving Repr, BEq

namespace Density

variable {α : Type} [Scalar α]

def standard (n : Nat) : Density α := ⟨Coordinates.origin n, List.replicate n 1⟩

/-- A density with a finite offset and a variance factor above zero for each variable. -/
def new (offset varianceFactor : List α) : Except (Error α) (Density α) :=
  if offset.length ≠ varianceFactor.length then
    .error (.invalid (.densitySize offset.length varianceFactor.length))
  else if Coordinates.allFinite offset = false then
    .error (.invalid (.notFiniteSilent "importance offset"))
  else if varianceFactor.all Scalar.isPositive = false then
    .error (.invalid (.notPositiveSilent "variance factor"))
  else .ok ⟨offset, varianceFactor⟩

def withOffset (d : Density α) (offset : List α) : Except (Error α) (Density α) :=
  new offset d.varianceFactor

/-- The density with every variance multiplied by a factor. -/
def withVarianceScaled (d : Density α) (factor : α) : Except (Error α) (Density α) :=
  new d.offset (d.varianceFactor.map (· * factor))

/-- The coordinate that a standard-normal number stands for, and the logarithm of its weight. -/
def coordinate (e m v : α) : α × α :=
  let s := Scalar.sqrt v
  let u := m + s * e
  (u, 0.5 * e * e - 0.5 * u * u + Scalar.log s)

/-- The sample that a standard-normal vector stands for, and its weight. -/
def sample (d : Density α) (eps : List α) : List α × α :=
  let coordinates := (eps.zip (d.offset.zip d.varianceFactor)).map fun (e, m, v) =>
    coordinate e m v
  (coordinates.map (·.1), Scalar.exp (Coordinates.sum (coordinates.map (·.2))))

end Density

end Sampling

end FailureProbability

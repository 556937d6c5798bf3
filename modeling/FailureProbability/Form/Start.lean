import FailureProbability.Coordinates
import FailureProbability.Model
import FailureProbability.Root.Ray

/-!
# Start points

Where a search for the design point begins: at a fixed point, at a given one, or where a ray from
the origin first meets the limit state.

A ray search uses the usual settings of rays but for its step and its length, which are taken as
they are given; the evaluations of the search and the one at the origin are counted with those of
the estimate that begins there. A ray without a crossing leads back to the origin, which is no
error.
-/

namespace FailureProbability

inductive Start (α : Type) where
  | zero
  /-- The point whose coordinates are all one. -/
  | one
  | given (u : List α)
  /-- The first crossing along a ray; without a direction the ray goes through the point whose
  coordinates are all one. -/
  | raySearch (direction : Option (List α)) (step maxLength : α)
  deriving Repr, BEq

namespace Start

/-- A start point and the evaluations that it took. -/
structure Found (α : Type) where
  u : List α
  evaluations : Nat
  deriving Repr, BEq

variable {α : Type} [Scalar α]

def unitRay (n : Nat) (direction : List α) : Except (Error α) (List α) :=
  let length := Coordinates.norm direction
  if direction.length ≠ n ∨ (length == 0) = true ∨ Scalar.isFinite length = false then
    .error (.invalid (.rayDirection n))
  else .ok (Coordinates.divide direction length)

def find (s : Start α) (m : Model α) : Run α (Found α) :=
  let n := m.dimension
  match s with
  | zero => return ⟨Coordinates.origin n, 0⟩
  | one => return ⟨List.replicate n 1, 0⟩
  | given u =>
    if u.length ≠ n ∨ Coordinates.allFinite u = false then throw (.invalid (.startPoint n u))
    else return ⟨u, 0⟩
  | raySearch direction step maxLength => do
    let ray ← Run.ofExcept (unitRay n (direction.getD (List.replicate n 1)))
    let z0 ← m.z (Coordinates.origin n)
    let finder := { Root.Ray.standard with step := step, maxLength := maxLength }
    let search ← finder.find z0 fun r => m.z (Coordinates.scale r ray)
    let u := match search.root with
      | some root => Coordinates.scale root.x ray
      | none => Coordinates.origin n
    return ⟨u, search.evaluations + 1⟩

end Start

end FailureProbability

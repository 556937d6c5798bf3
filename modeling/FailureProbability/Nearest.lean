import FailureProbability.Coordinates

/-!
# The nearest point

Of a sequence of points the one nearest to the origin, and of several equally near ones the first.
Distances are compared by their squares. A candidate whose distance is not a number is never nearer
than another point, but it is kept when it comes first, and then no other one takes its place.
-/

namespace FailureProbability

/-- A point and its squared distance from the origin. -/
structure Nearest (α : Type) where
  squared : α
  point : List α
  deriving Repr, BEq

namespace Nearest

variable {α : Type} [Scalar α]

def of (u : List α) : Nearest α := ⟨Coordinates.dot u u, u⟩

/-- The best so far, or a candidate that is strictly nearer. -/
def offer (best : Option (Nearest α)) (candidate : Nearest α) : Option (Nearest α) :=
  match best with
  | none => some candidate
  | some b => if candidate.squared < b.squared then some candidate else some b

/-- The best of two sequences, of which the second one follows the first. -/
def merge (best : Option (Nearest α)) (other : Option (Nearest α)) : Option (Nearest α) :=
  match other with
  | none => best
  | some c => offer best c

/-- An offer leaves a best point: the candidate if it is strictly nearer, else the one before. -/
theorem offer_some (b c : Nearest α) :
    offer (some b) c = some (if c.squared < b.squared then c else b) := by
  simp only [offer]
  split <;> rfl

end Nearest

end FailureProbability

import FailureProbability.Error
import FailureProbability.Scalar

/-!
# Root searches

A search looks for an abscissa where a function changes its sign. The function is known only through
the values that the search asks for, so that it may be any computation; a search is written for an
arbitrary monad and asks for at most as many values as its budget allows.

Two points cross when their values have opposite signs or when one of them is zero. That is a test
on values: where a function is not continuous, there need be no zero between two points that cross.
-/

namespace FailureProbability

namespace Root

structure Point (α : Type) where
  x : α
  z : α
  deriving Repr, BEq

structure Search (α : Type) where
  /-- The root, if there is a change of sign. -/
  root : Option (Point α)
  evaluations : Nat
  /-- The search ended before its budget did. -/
  converged : Bool
  deriving Repr, BEq

variable {α : Type} [Scalar α]

namespace Point

/-- Two points have values of opposite sign, or one of them is a root. -/
def crosses (p q : Point α) : Bool :=
  p.z == 0 || q.z == 0 || decide (p.z < 0) != decide (q.z < 0)

/-- The first point if its value is strictly the smaller one in size, and otherwise the second. -/
def nearer (p q : Point α) : Point α := if Scalar.abs p.z < Scalar.abs q.z then p else q

end Point

def Search.residual (s : Search α) : Option α := s.root.map fun p => Scalar.abs p.z

end Root

end FailureProbability

import FailureProbability.Root.Bracket
import FailureProbability.Root.March

/-!
# Rays

A ray search looks for the first change of sign at abscissas from zero up to a greatest length,
where the value at zero is known. It marches with a coarse step; the crossing is then either refined
inside a bracket or settled by a policy.

The march and the refinement share one budget, and the value at zero is not counted in it. A search
whose budget ends before the ray does returns no root either; it is told from one that has seen the
whole ray by `Search.converged` alone, and it is for the caller to look.
-/

namespace FailureProbability

namespace Root

inductive Ray.Method where
  /-- By refining it inside a bracket. -/
  | robust (refinement : Bracket.Method)
  /-- By choosing one of the points of the march. -/
  | linearLoop (choice : March.Choice)
  deriving Repr, BEq, DecidableEq

structure Ray (α : Type) where
  step : α
  maxLength : α
  /-- The accuracy of the refined abscissa. -/
  tolerance : α
  method : Ray.Method
  /-- The greatest number of values asked for. -/
  budget : Nat
  deriving Repr, BEq

namespace Ray

variable {α : Type} [Scalar α]

/-- A coarse step of three up to a length of twenty, refined to a thousandth. -/
def standard : Ray α := ⟨3, 20, 1e-3, .robust .andersonBjorck, 100⟩

/-- The first change of sign along the ray. There is none when no root is returned and the search
has converged. -/
def find {m : Type → Type} [Monad m] (ray : Ray α) (z0 : α) (f : α → ExceptT (Error α) m α) :
    ExceptT (Error α) m (Search α) := do
  let start := March.ofPoints [⟨0, z0⟩]
  match ray.method with
  | .linearLoop choice => March.solve choice ray.step ray.maxLength ray.budget start f
  | .robust refinement =>
    let walk ← March.advance ray.step ray.maxLength f ray.budget 0 start
    match walk.state.crossing? with
    | none => return ⟨none, walk.evaluations, walk.converged⟩
    | some (p, q) =>
      let bracket ← ExceptT.mk (pure (Bracket.new p q))
      -- The march and the refinement share one budget.
      let refined ← bracket.solve refinement ray.tolerance (ray.budget - walk.evaluations) f
      return { refined with evaluations := walk.evaluations + refined.evaluations }

end Ray

end Root

end FailureProbability

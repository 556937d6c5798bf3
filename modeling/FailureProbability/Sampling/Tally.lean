import FailureProbability.Direction
import FailureProbability.Nearest
import FailureProbability.Sampling.Config

/-!
# Tallies

What is kept of the samples of a run. Failing and safe samples are tallied apart: their number,
their weights, the weighted sum of their points and the point nearest to the origin. The estimate of
the failure probability is the weight of the failing samples over the number of all.

Samples themselves are not kept, and all that is kept can be brought up to date with one more
sample. The variance is that of a mean of weights, in which a safe sample counts as zero; it is cut
off at zero, below which only rounding can lead. Without a failing sample, or with nothing but
failing ones, one of the variation coefficients has no bound, which no finite setting is met by.
-/

namespace FailureProbability

namespace Sampling

/-- How the point that gives the direction is chosen. -/
inductive AlphaEstimate where
  /-- The sample nearest to the origin. -/
  | nearest
  | weightedMean
  deriving Repr, BEq, DecidableEq

structure Domain (α : Type) where
  count : Nat
  weight : α
  weightedSum : List α
  nearest : Option (Nearest α)
  deriving Repr, BEq

namespace Domain

variable {α : Type} [Scalar α]

def empty : Domain α := ⟨0, 0, [], none⟩

def add (d : Domain α) (u : List α) (w : α) : Domain α :=
  let sums := if d.weightedSum.isEmpty then Coordinates.origin u.length else d.weightedSum
  ⟨d.count + 1, d.weight + w, Coordinates.addScaled w sums u, Nearest.offer d.nearest (.of u)⟩

/-- The point that stands for the samples, if there is one. -/
def point? (d : Domain α) : AlphaEstimate → Option (List α)
  | .nearest => d.nearest.map (·.point)
  | .weightedMean =>
    if 0 < d.weight then some (Coordinates.divide d.weightedSum d.weight) else none

end Domain

structure Tally (α : Type) where
  count : Nat
  /-- The sum of the squared weights of the failing samples. -/
  squares : α
  failed : Domain α
  safe : Domain α
  deriving Repr, BEq

namespace Tally

variable {α : Type} [Scalar α]

def empty : Tally α := ⟨0, 0, .empty, .empty⟩

/-- One more sample: its point, the value of the limit state there and its weight. -/
def add (t : Tally α) (u : List α) (z w : α) : Tally α :=
  if z < 0 then ⟨t.count + 1, t.squares + w * w, t.failed.add u w, t.safe⟩
  else ⟨t.count + 1, t.squares, t.failed, t.safe.add u w⟩

def pf (t : Tally α) : α := if t.count = 0 then 0 else t.failed.weight / Scalar.ofNat t.count

def variance (t : Tally α) : α :=
  if t.count = 0 then Scalar.infinity
  else
    let n := Scalar.ofNat t.count
    Scalar.max (t.squares / n - t.pf * t.pf) 0 / n

def covarFailure (t : Tally α) : α :=
  if 0 < t.pf then Scalar.sqrt t.variance / t.pf else Scalar.infinity

def covarNoFailure (t : Tally α) : α :=
  if t.pf < 1 then Scalar.sqrt t.variance / (1 - t.pf) else Scalar.infinity

def beta (t : Tally α) : α := betaOf t.pf

def nearestFailure (t : Tally α) : Option (List α) := t.failed.nearest.map (·.point)

/-- The direction of the estimate: that of the rarer domain. -/
def direction (t : Tally α) (n : Nat) (estimate : AlphaEstimate) : Direction α :=
  let rare := if t.pf ≤ 0.5 then t.failed else t.safe
  match rare.point? estimate with
  | some point => Direction.ofPointAndBeta point t.beta
  | none => Direction.isotropic n t.beta

/-! ## Counts -/

@[simp] theorem count_add (t : Tally α) (u : List α) (z w : α) :
    (t.add u z w).count = t.count + 1 := by
  simp only [add]
  split <;> rfl

end Tally

end Sampling

end FailureProbability

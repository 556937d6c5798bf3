import FailureProbability.Estimator
import FailureProbability.Nearest
import FailureProbability.Sampling.Config

/-!
# Integration on a grid

Every axis of standard-normal space is cut into cells of equal width; the outer ones reach to
infinity, so that the masses of all cells add up to one. The failure probability is the mass of the
grid cells whose midpoint fails.

The cells of the first axis are the slices. A slice has a tally of its own, which is merged into
that of the run when the slice is done, so that what is added to what does not depend on how many
slices are evaluated together; only the reports between them do. An order to stop takes effect
between slices, and the mass of the slices that are left is then taken as safe.

The number of points rises with the power of the dimension. A model with too many variables is
refused before anything is evaluated, and no cell is ever left out for being small.
-/

namespace FailureProbability

namespace Grid

structure Config (α : Type) where
  minU : α
  maxU : α
  cellCount : Nat
  deriving Repr, BEq

structure Cell (α : Type) where
  middle : α
  mass : α
  deriving Repr, BEq

variable {α : Type} [Scalar α]

/-- The mass up to a bound, all of it if there is none. -/
def massUpTo : Option α → α
  | some x => Normal.cdf x
  | none => 1

/-- The mass beyond a bound, nothing if there is none. -/
def massBeyond : Option α → α
  | some x => Normal.cdf (-x)
  | none => 0

/-- The mass between two bounds; on the upper half of the axis it is a difference of upper tails,
which are small there. -/
def massBetween (lower upper : Option α) : α :=
  match lower with
  | none => massUpTo upper
  | some x => if 0 ≤ x then Normal.cdf (-x) - massBeyond upper else massUpTo upper - Normal.cdf x

namespace Config

def standard : Config α := ⟨-8, 8, 200⟩

def validate (c : Config α) : Except (Error α) Unit := do
  if ¬(Scalar.isFinite c.minU = true ∧ Scalar.isFinite c.maxU = true ∧ c.minU < c.maxU) then
    throw (.invalid (.gridBounds c.minU c.maxU))
  if c.cellCount = 0 then throw (.invalid (.zeroCount "n_cells"))

def width (c : Config α) : α := (c.maxU - c.minU) / Scalar.ofNat c.cellCount

/-- The lower bound of cell `k`; the first one has none. -/
def lowerBound (c : Config α) (k : Nat) : Option α :=
  if k = 0 then none else some (c.minU + Scalar.ofNat k * c.width)

/-- The upper bound of cell `k`; the last one has none. -/
def upperBound (c : Config α) (k : Nat) : Option α :=
  if k + 1 = c.cellCount then none else some (c.minU + Scalar.ofNat (k + 1) * c.width)

def cell (c : Config α) (k : Nat) : Cell α :=
  ⟨c.minU + (Scalar.ofNat k + 0.5) * c.width, massBetween (c.lowerBound k) (c.upperBound k)⟩

def cells (c : Config α) : List (Cell α) := (List.range c.cellCount).map c.cell

end Config

def name : String := "NumericalIntegration"

def maxDimension : Nat := 11

structure Tally (α : Type) where
  pf : α
  count : Nat
  failure : Option (Nearest α)
  safe : Option (Nearest α)
  deriving Repr, BEq

namespace Tally

def empty : Tally α := ⟨0, 0, none, none⟩

/-- One more point: its coordinates, the value of the limit state there and the mass of its cell. -/
def add (t : Tally α) (u : List α) (z mass : α) : Tally α :=
  if z < 0 then ⟨t.pf + mass, t.count + 1, Nearest.offer t.failure (.of u), t.safe⟩
  else ⟨t.pf, t.count + 1, t.failure, Nearest.offer t.safe (.of u)⟩

/-- The points of two tallies, of which the second one follows the first. -/
def merge (t other : Tally α) : Tally α :=
  ⟨t.pf + other.pf, t.count + other.count, Nearest.merge t.failure other.failure,
    Nearest.merge t.safe other.safe⟩

/-- The direction of the nearest point of the rarer domain. -/
def direction (t : Tally α) (n : Nat) : Direction α :=
  let beta := Sampling.betaOf t.pf
  match if Scalar.clamp t.pf 0 1 ≤ 0.5 then t.failure else t.safe with
  | some nearest => Direction.ofPointAndBeta nearest.point beta
  | none => Direction.isotropic n beta

end Tally

/-- Evaluates the grid points whose first coordinates are `u`, with `levels` coordinates to follow;
`mass` is the mass of the first coordinates. -/
def integrate (m : Model α) (cells : List (Cell α)) :
    Nat → List α → α → Tally α → Run α (Tally α)
  | 0, u, mass, t => do
    let z ← m.z u
    return t.add u z mass
  | levels + 1, u, mass, t =>
    cells.foldlM (fun t c => integrate m cells levels (u ++ [c.middle]) (mass * c.mass) t) t

/-- Goes through the cells of the first axis that are left, after `done` of them. It reports after
as many cells as the model evaluates together, and after the last one. -/
def slices (m : Model α) (cells : List (Cell α)) :
    List (Cell α) → Nat → Tally α → Run α (Tally α × Status)
  | [], _, t => return (t, .success)
  | c :: rest, done, t => do
    let part ← integrate m cells (m.dimension - 1) [c.middle] c.mass .empty
    let t := t.merge part
    let done := done + 1
    if done % Nat.max m.threads 1 = 0 ∨ rest.isEmpty = true then
      if ← m.report ⟨done, cells.length, Sampling.betaOf t.pf, 0⟩ then
        return (t, .abortedByUser)
      else slices m cells rest done t
    else slices m cells rest done t

def estimate (c : Config α) (m : Model α) : Run α (Estimate α) := do
  let n := m.dimension
  if maxDimension < n then throw (.invalid (.gridDimension maxDimension n))
  let before ← Run.evaluations
  let cells := c.cells
  let (t, status) ← slices m cells cells 0 .empty
  let d := t.direction n
  let u := d.designPoint
  let x ← Run.ofExcept (m.x u)
  let after ← Run.evaluations
  return ⟨status, d, x, u, name, t.count, after - before⟩

def estimator (c : Config α) : Except (Error α) (Estimator α) := do
  c.validate
  return .unseeded name (estimate c)

end Grid

end FailureProbability

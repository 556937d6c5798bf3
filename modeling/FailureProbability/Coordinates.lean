import FailureProbability.Scalar

/-!
# Points of standard-normal space

A point is the list of its coordinates. Sums run from the first coordinate to the last. They begin
with the negative zero: it changes no number that is added to it, whereas a positive zero would take
the sign of a negative one.

The order of a sum is part of what these functions are. For numbers that round, and for numbers of
which nothing is known, another order gives another result; only exact numbers allow to forget it.

No length is part of a point. Operations on two points stop where the shorter one ends, or leave the
rest as it is, and the lemmas on lengths say which of the two; that points fit a model is stated
where models are.
-/

namespace FailureProbability

namespace Coordinates

variable {α : Type} [Scalar α]

def sum (xs : List α) : α := xs.foldl (· + ·) (-0)

/-- The inner product; a longer list is cut to the length of the other. -/
def dot (a b : List α) : α := sum (List.zipWith (· * ·) a b)

def norm (v : List α) : α := Scalar.sqrt (sum (v.map fun x => x * x))

def allFinite (v : List α) : Bool := v.all Scalar.isFinite

/-- Every coordinate multiplied by `factor`, which stands on the left. -/
def scale (factor : α) (v : List α) : List α := v.map (factor * ·)

def divide (v : List α) (divisor : α) : List α := v.map (· / divisor)

/-- Adds `weight` times a point to a list of sums; sums beyond its last coordinate stay. -/
def addScaled (weight : α) : List α → List α → List α
  | s :: sums, v :: u => (s + weight * v) :: addScaled weight sums u
  | sums, _ => sums

def origin (n : Nat) : List α := List.replicate n 0

/-! ## Dimensions -/

@[simp] theorem length_scale (factor : α) (v : List α) : (scale factor v).length = v.length := by
  simp [scale]

@[simp] theorem length_divide (v : List α) (divisor : α) :
    (divide v divisor).length = v.length := by
  simp [divide]

@[simp] theorem length_origin (n : Nat) : (origin n : List α).length = n := by
  simp [origin]

/-- The number of sums stays, whatever the dimension of the point. -/
@[simp] theorem length_addScaled (weight : α) (sums u : List α) :
    (addScaled weight sums u).length = sums.length := by
  induction sums generalizing u with
  | nil => rfl
  | cons s sums ih =>
    cases u with
    | nil => rfl
    | cons v u => simp [addScaled, ih]

end Coordinates

end FailureProbability

/-!
# Numbers

Every algorithm of the library is written once, for any type of numbers that has the operations of
`Scalar`. Binary floating point runs it; exact arithmetic, or arithmetic about which nothing at all
is known, is a further instance that statements can speak of. Comparisons are decidable
propositions, so that control flow reads as mathematics; `==` is the comparison by value, for which
a value that is not a number differs from itself.

`Scalar` has operations and no laws. A statement about an arbitrary instance is one about the
algorithm alone, and it holds with all the rounding of doubles; it cannot use that a sum is
associative, or that a number is not below itself. Laws come in by the choice of an instance: the
real numbers (`Scalar.Exact`), or numbers of which the finite ones are real
(`Proofs.Scalar.Partial`).

The special functions are operations like the others, since statements on probabilities are to hold
whatever approximation is used for them.
-/

namespace FailureProbability

/-- Numbers with the arithmetic and the special functions that the estimators use. Nothing is
assumed of the operations. -/
class Scalar (α : Type) extends Add α, Sub α, Mul α, Div α, Neg α, LT α, LE α, BEq α,
    OfScientific α where
  /-- Strict comparison can be decided. -/
  decLt : DecidableLT α
  /-- Weak comparison can be decided. -/
  decLe : DecidableLE α
  /-- The number that a count denotes. -/
  ofNat : Nat → α
  /-- The bound of a quantity that has no bound yet. -/
  infinity : α
  /-- Neither infinite nor undefined. -/
  isFinite : α → Bool
  /-- The result of an undefined operation. -/
  isNaN : α → Bool
  abs : α → α
  sqrt : α → α
  exp : α → α
  log : α → α
  /-- `log1p x` is the logarithm of `1 + x`, accurate near `x = 0`. -/
  log1p : α → α
  /-- `pow x y` is `x` to the power `y`. -/
  pow : α → α → α
  /-- `mulAdd x y z` is `x * y + z`, rounded once. -/
  mulAdd : α → α → α → α
  /-- The least count that is not below the number. -/
  ceilNat : α → Nat
  erfc : α → α
  erfcInv : α → α
  /-- Regularised lower incomplete gamma function `P(a, x)`. -/
  gammaLower : α → α → α
  /-- Regularised upper incomplete gamma function `Q(a, x)`. -/
  gammaUpper : α → α → α

namespace Scalar

variable {α : Type} [Scalar α]

instance : DecidableLT α := Scalar.decLt

instance : DecidableLE α := Scalar.decLe

-- A type of numbers that has literals of its own keeps them.
instance (priority := 10) instOfNat (n : Nat) : OfNat α n := ⟨Scalar.ofNat n⟩

/-- The smaller of two numbers; a value that is not a number gives way to the other. -/
def min (a b : α) : α :=
  if Scalar.isNaN a then b else if Scalar.isNaN b then a else if b < a then b else a

/-- The larger of two numbers; a value that is not a number gives way to the other. -/
def max (a b : α) : α :=
  if Scalar.isNaN a then b else if Scalar.isNaN b then a else if a < b then b else a

/-- The number of `[low, high]` nearest to `x`. -/
def clamp (x low high : α) : α :=
  if x < low then low else if high < x then high else x

/-- The sign of a number as `1` or `-1`; a zero has the sign of its reciprocal. -/
def signum (x : α) : α :=
  if Scalar.isNaN x then x
  else if x < 0 then -1
  else if x == 0 && decide (1 / x < 0) then -1
  else 1

/-- Finite and above zero. -/
def isPositive (x : α) : Bool := Scalar.isFinite x && decide (0 < x)

end Scalar

end FailureProbability

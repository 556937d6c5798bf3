import FailureProbability.Binary64

/-!
# Decimal digits of a number

Exact decimal digits of `significand · 2 ^ exponent`, in three measures: so many significant digits,
so many places after the point, or the fewest digits that read back as the same double.

All of it is arithmetic on counts: a number is a quotient of two counts (`scaledRatio`) and is
compared and rounded as such, so that no digit depends on a rounding before the last one. This costs
time for numbers with large exponents and is not meant to be fast.

Fewest digits are found by trying: from the grid of the first digit on, each grid has ten times as
many figures as the one before, and the first one with a figure in the interval of the double wins
(`readsBack`, `onGrid?`). Where two figures of a grid are in the interval and equally near, the
caller chooses (`Tie`).
-/

namespace FailureProbability.Decimal

open Binary64

/-- The decimal digits of a count, most significant first. -/
def digits (n : Nat) : List Char := Nat.toDigits 10 n

/-- `significand · 2 ^ exponent · 10 ^ power` as a quotient of counts. -/
def scaledRatio (significand : Nat) (exponent power : Int) : Nat × Nat :=
  (significand * Nat.pow 2 exponent.toNat * Nat.pow 10 power.toNat,
    Nat.pow 2 (-exponent).toNat * Nat.pow 10 (-power).toNat)

def reaches (significand : Nat) (exponent power : Int) : Bool :=
  let (numerator, denominator) := scaledRatio significand exponent (-power)
  denominator ≤ numerator

/-- The decimal exponent of a positive number: the power of ten of its first digit. A first guess
from the binary logarithm is off by one at most. -/
def leadingPower (significand : Nat) (exponent : Int) : Int :=
  let guess := ((significand.log2 : Int) + exponent) * 30103 / 100000
  if reaches significand exponent (guess + 1) then guess + 1
  else if reaches significand exponent guess then guess
  else guess - 1

structure Figure where
  units : Nat
  /-- The power of ten of the last digit. -/
  power : Int
  deriving Repr, DecidableEq

/-- The number rounded to `count + 1` significant digits. -/
def significant (count significand : Nat) (exponent : Int) : Figure :=
  if significand = 0 then ⟨0, 0⟩
  else
    let power := leadingPower significand exponent - count
    let (numerator, denominator) := scaledRatio significand exponent (-power)
    let units := roundDiv numerator denominator
    -- Rounding up may give one digit more.
    if units = Nat.pow 10 (count + 1) then ⟨Nat.pow 10 count, power + 1⟩ else ⟨units, power⟩

/-- The number rounded to a multiple of `10 ^ -places`. -/
def fixed (places significand : Nat) (exponent : Int) : Nat :=
  let (numerator, denominator) := scaledRatio significand exponent places
  roundDiv numerator denominator

/-- The numbers that round to a double, in quarters of its last binary place: four times its
significand lies between the bounds, and the bounds themselves belong iff the significand is
even. -/
structure Interval where
  low : Nat
  high : Nat
  closed : Bool

/-- The numbers nearer to the double `significand · 2 ^ exponent` than to its neighbours. -/
def readsBack (significand : Nat) (exponent : Int) : Interval :=
  -- Below a power of two the neighbour is half as far away.
  let nearBelow := significand = Nat.pow 2 52 && minExponent < exponent
  ⟨4 * significand - (if nearBelow then 1 else 2), 4 * significand + 2, significand % 2 = 0⟩

/-- Does the figure lie in an interval of quarters of `2 ^ exponent`? -/
def Interval.contains (i : Interval) (exponent : Int) (f : Figure) : Bool :=
  let value := f.units * Nat.pow 10 f.power.toNat * Nat.pow 2 (2 - exponent).toNat
  let unit := Nat.pow 10 (-f.power).toNat * Nat.pow 2 (exponent - 2).toNat
  if i.closed then i.low * unit ≤ value && value ≤ i.high * unit
  else i.low * unit < value && value < i.high * unit

/-- Which of two neighbouring figures stands for a value midway between them. -/
inductive Tie where
  | up
  /-- The one with an even last digit. -/
  | toEven
  deriving Repr, DecidableEq

/-- Is `units` taken, and not its successor, for the value `units + remainder / denominator`? -/
def Tie.keeps (tie : Tie) (units remainder denominator : Nat) : Bool :=
  2 * remainder < denominator ||
    (2 * remainder = denominator && tie = .toEven && units % 2 = 0)

/-- The figure on the grid of `10 ^ power` that reads back as the double, if there is one: the
nearer of the two neighbours of the value. -/
def onGrid? (tie : Tie) (significand : Nat) (exponent power : Int) : Option Figure :=
  let interval := readsBack significand exponent
  let (numerator, denominator) := scaledRatio significand exponent (-power)
  let below : Figure := ⟨numerator / denominator, power⟩
  let above : Figure := ⟨numerator / denominator + 1, power⟩
  let lower := interval.contains exponent below
  let upper := interval.contains exponent above
  if numerator % denominator = 0 then some below
  else if lower && upper then
    if tie.keeps below.units (numerator % denominator) denominator then some below else some above
  else if lower then some below
  else if upper then some above
  else none

/-- The first grid, from coarse to fine, with a figure that reads back. -/
def shortestFrom (tie : Tie) (significand : Nat) (exponent power : Int) : Nat → Figure
  | 0 => (onGrid? tie significand exponent power).getD ⟨0, 0⟩
  | fuel + 1 =>
    match onGrid? tie significand exponent power with
    | some f => if f.units = 0 then shortestFrom tie significand exponent (power - 1) fuel else f
    | none => shortestFrom tie significand exponent (power - 1) fuel

def Figure.trim (f : Figure) : Nat → Figure
  | 0 => f
  | fuel + 1 =>
    if f.units ≠ 0 && f.units % 10 = 0 then Figure.trim ⟨f.units / 10, f.power + 1⟩ fuel else f

/-- The fewest digits that read back as the double, and the nearest figure of so many digits.
Seventeen digits always suffice. -/
def shortest (tie : Tie) (significand : Nat) (exponent : Int) : Figure :=
  if significand = 0 then ⟨0, 0⟩
  else
    (shortestFrom tie significand exponent (leadingPower significand exponent + 1) 18).trim 20

end FailureProbability.Decimal

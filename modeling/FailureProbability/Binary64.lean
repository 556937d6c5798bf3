import FailureProbability.Decimal.Rounding

/-!
# Doubles as significand and exponent

A finite double is `± significand · 2 ^ exponent` with counts for significand and a whole exponent.
`Parts.ofFloat?` reads this form off the bits and `Parts.toFloat` rounds any such form to the
nearest double, a tie to the even significand, so that exact arithmetic on counts can stand in for
an operation that rounds once.

The rounding is done on counts and ends in the word that a double is stored as (`Parts.word`). What
is stated of it is therefore a matter of counts alone, and subnormal numbers, a carry into the next
power of two and the step to infinity are no cases of their own.

Infinities and what is not a number have no parts; `mulAdd` leaves them to the arithmetic of
doubles.
-/

namespace FailureProbability.Binary64

/-- `± significand · 2 ^ exponent`. -/
structure Parts where
  negative : Bool
  significand : Nat
  exponent : Int
  deriving Repr, DecidableEq

def minExponent : Int := -1074

/-- The parts of a finite double, with the significand as it is stored. -/
def Parts.ofFloat? (x : Float) : Option Parts :=
  let bits : Nat := x.toBits.toNat
  let field : Nat := bits / Nat.pow 2 52 % Nat.pow 2 11
  let fraction : Nat := bits % Nat.pow 2 52
  let negative : Bool := Nat.pow 2 63 ≤ bits
  if field = 2047 then none
  -- A subnormal number has no leading digit of its own.
  else if field = 0 then some ⟨negative, fraction, minExponent⟩
  else some ⟨negative, Nat.pow 2 52 + fraction, (field : Int) - 1075⟩

/-- The word that the infinite double is stored as. -/
def infinityWord : Nat := 2047 * Nat.pow 2 52

/-- The exponent of the last binary digit of the nearest double: it has 53 digits, or all that there
are above `2 ^ -1074`. -/
def Parts.lastPlace (p : Parts) : Int :=
  max (p.exponent + p.significand.log2 - 52) minExponent

/-- The significand over the exponent of the last digit, the rest rounded away. -/
def Parts.rounded (p : Parts) : Nat :=
  if p.lastPlace ≤ p.exponent then
    p.significand * Nat.pow 2 (p.exponent - p.lastPlace).toNat
  else Decimal.roundDiv p.significand (Nat.pow 2 (p.lastPlace - p.exponent).toNat)

/-- The word that the nearest double is stored as, but for the sign. Of a significand with 53 digits
the first one is not stored and adds to the exponent instead, as does a carry beyond them. -/
def Parts.word (p : Parts) : Nat :=
  if p.significand = 0 then 0
  else min infinityWord ((p.lastPlace - minExponent).toNat * Nat.pow 2 52 + p.rounded)

/-- The double that is stored as a word with a sign. -/
def ofWord (negative : Bool) (word : Nat) : Float :=
  Float.ofBits (UInt64.ofNat (if negative then Nat.pow 2 63 + word else word))

/-- The double nearest to the parts; beyond the largest double it is infinite. -/
def Parts.toFloat (p : Parts) : Float := ofWord p.negative p.word

/-- The double nearest to `numerator / denominator`. The quotient is taken to 66 binary digits or
more, and one further digit says whether anything was cut off. -/
def ofRatio (negative : Bool) (numerator denominator : Nat) : Float :=
  let shift := 66 + denominator.log2 - numerator.log2
  let scaled := numerator * Nat.pow 2 shift
  let sticky := if scaled % denominator = 0 then 0 else 1
  Parts.toFloat ⟨negative, 2 * (scaled / denominator) + sticky, -(shift : Int) - 1⟩

/-- The exact sum of two numbers, over the smaller of their exponents. -/
def Parts.add (a b : Parts) : Parts :=
  let exponent := min a.exponent b.exponent
  let value (p : Parts) : Int :=
    let m : Int := p.significand * Nat.pow 2 (p.exponent - exponent).toNat
    if p.negative then -m else m
  let sum := value a + value b
  ⟨sum < 0, sum.natAbs, exponent⟩

def Parts.mul (a b : Parts) : Parts :=
  ⟨a.negative != b.negative, a.significand * b.significand, a.exponent + b.exponent⟩

/-- `x * y + z`, rounded once. -/
def mulAdd (x y z : Float) : Float :=
  match Parts.ofFloat? x, Parts.ofFloat? y, Parts.ofFloat? z with
  | some a, some b, some c => ((a.mul b).add c).toFloat
  | _, _, _ => x * y + z

end FailureProbability.Binary64

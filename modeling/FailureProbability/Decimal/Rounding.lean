/-!
# Rounding quotients of counts

The one rounding rule of the library: to the nearest whole, and from the middle to the even
neighbour. Binary and decimal text alike are reduced to it. A quotient with denominator zero is
taken for zero, as division of counts is; no caller has one.
-/

namespace FailureProbability.Decimal

/-- `numerator / denominator` rounded to the nearest whole, a tie to the even one. -/
def roundDiv (numerator denominator : Nat) : Nat :=
  let quotient := numerator / denominator
  let twice := 2 * (numerator % denominator)
  if twice < denominator then quotient
  else if denominator < twice then quotient + 1
  else if quotient % 2 = 0 then quotient else quotient + 1

end FailureProbability.Decimal

/-!
# Polynomials in floating point

The special functions are ratios of polynomials on intervals. A polynomial is the list of its
coefficients, constant term first, and is evaluated by Horner's rule. The rounding of each step is
part of the value: with another order of operations the last digits of a special function are
others.
-/

namespace FailureProbability.Special

/-- The value at `x` of the polynomial with these coefficients, constant term first. -/
def polynomial : List Float → Float → Float
  | [], _ => 0
  | [c], _ => c
  | c :: rest, x => c + x * polynomial rest x

end FailureProbability.Special

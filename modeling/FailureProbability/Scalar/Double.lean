import FailureProbability.Binary64
import FailureProbability.Scalar
import FailureProbability.Special.Erfc
import FailureProbability.Special.ErfcInverse
import FailureProbability.Special.IncompleteGamma

/-!
# Doubles as numbers

The numbers that the estimators run on. Arithmetic and elementary functions are those of the
machine; the special functions are the approximations of this library.
-/

namespace FailureProbability

/-- The logarithm of `1 + x`. Near zero the rounding of `1 + x` is made good by the factor
`x / ((1 + x) - 1)`. -/
def log1p (x : Float) : Float :=
  let y := 1 + x
  if y == 1 then x
  else if x.isFinite && y != 0 then Float.log y * (x / (y - 1))
  else Float.log y

instance : Scalar Float where
  decLt := fun a b => inferInstanceAs (Decidable (a < b))
  decLe := fun a b => inferInstanceAs (Decidable (a ≤ b))
  ofNat := Float.ofNat
  infinity := 1 / 0
  isFinite := Float.isFinite
  isNaN := Float.isNaN
  abs := Float.abs
  sqrt := Float.sqrt
  exp := Float.exp
  log := Float.log
  log1p := log1p
  pow := Float.pow
  mulAdd := Binary64.mulAdd
  ceilNat x := x.ceil.toUInt64.toNat
  erfc := Special.erfc
  erfcInv := Special.erfcInv
  gammaLower := Special.gammaLower
  gammaUpper := Special.gammaUpper

end FailureProbability

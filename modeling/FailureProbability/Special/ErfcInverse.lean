import FailureProbability.Special.Polynomial

/-!
# The inverse of the complementary error function

`erfcInv y` is read off the standard-normal quantile: the argument of `erfc` with value `y` is the
point that a standard-normal variable exceeds with probability `y / 2`, divided by the square root
of two. The quantile is a rational approximation near the median and, in the tails, of the square
root of the negative logarithm of the tail mass; its relative error is about `1e-16`.

It is an inverse of the function and not of its approximation in this library, which is the coarser
one of the two.
-/

namespace FailureProbability.Special

/-- Numerator and denominator near the median, in `0.180625 - (p - 1/2)²`. -/
def quantileCentre : List Float × List Float :=
  ([3.3871328727963666080e0, 1.3314166789178437745e+2, 1.9715909503065514427e+3,
    1.3731693765509461125e+4, 4.5921953931549871457e+4, 6.7265770927008700853e+4,
    3.3430575583588128105e+4, 2.5090809287301226727e+3],
   [1.0, 4.2313330701600911252e+1, 6.8718700749205790830e+2, 5.3941960214247511077e+3,
    2.1213794301586595867e+4, 3.9307895800092710610e+4, 2.8729085735721942674e+4,
    5.2264952788528545610e+3])

/-- Numerator and denominator for tail masses down to `exp (-25)`, in `√(-log p) - 1.6`. -/
def quantileTail : List Float × List Float :=
  ([1.42343711074968357734e0, 4.63033784615654529590e0, 5.76949722146069140550e0,
    3.64784832476320460504e0, 1.27045825245236838258e0, 2.41780725177450611770e-1,
    2.27238449892691845833e-2, 7.74545014278341407640e-4],
   [1.0, 2.05319162663775882187e0, 1.67638483018380384940e0, 6.89767334985100004550e-1,
    1.48103976427480074590e-1, 1.51986665636164571966e-2, 5.47593808499534494600e-4,
    1.05075007164441684324e-9])

/-- Numerator and denominator for smaller tail masses, in `√(-log p) - 5`. -/
def quantileFarTail : List Float × List Float :=
  ([6.65790464350110377720e0, 5.46378491116411436990e0, 1.78482653991729133580e0,
    2.96560571828504891230e-1, 2.65321895265761230930e-2, 1.24266094738807843860e-3,
    2.71155556874348757815e-5, 2.01033439929228813265e-7],
   [1.0, 5.99832206555887937690e-1, 1.36929880922735805310e-1, 1.48753612908506148525e-2,
    7.86869131145613259100e-4, 1.84631831751005468180e-5, 1.42151175831644588870e-7,
    2.04426310338993978564e-15])

def quantileRatio (r : List Float × List Float) (x : Float) : Float :=
  polynomial r.1 x / polynomial r.2 x

/-- The point that a standard-normal variable exceeds with probability `q`, for `0 < q ≤ 1/2`. -/
def exceedanceQuantile (q : Float) : Float :=
  let c := 0.5 - q
  if c ≤ 0.425 then c * quantileRatio quantileCentre (0.180625 - c * c)
  else
    let r := Float.sqrt (-Float.log q)
    if r ≤ 5 then quantileRatio quantileTail (r - 1.6) else quantileRatio quantileFarTail (r - 5)

/-- The argument at which the complementary error function has the value `y`. -/
def erfcInv (y : Float) : Float :=
  if y.isNaN then y
  else if y ≤ 0 then 1 / 0
  else if 2 ≤ y then -1 / 0
  else if y ≤ 1 then exceedanceQuantile (y / 2) / Float.sqrt 2
  else -(exceedanceQuantile ((2 - y) / 2) / Float.sqrt 2)

end FailureProbability.Special

/-!
# The regularised incomplete gamma functions

`P(a, x)` by its power series where `x ≤ a` or `x ≤ 1`, `Q(a, x)` by its continued fraction
elsewhere, and each as the complement of the other on the other's ground. Once the common factor `xᵃ
e⁻ˣ / Γ(a)` falls under the smallest number whose exponential is representable, both are taken as
exactly `0` or `1`.

Series and fraction are cut when two successive values agree, and after a fixed number of steps in
any case. Shapes here are halves of counts of variables; other shapes above zero are allowed, and
nothing is said of shapes below.
-/

namespace FailureProbability.Special

/-- Shift of the argument in the approximation of the logarithm of the gamma function. -/
def lanczosShift : Float := 607.0 / 128.0

/-- Coefficients of that approximation after the constant term, for the poles `1, 2, 3, …`. -/
def lanczosCoefficients : List Float :=
  [57.156235665862923517, -59.597960355475491248, 14.136097974741747174,
   -0.49191381609762019978, 0.33994649984811888699e-4, 0.46523628927048575665e-4,
   -0.98374475304879564677e-4, 0.15808870322491248884e-3, -0.21026444172410488319e-3,
   0.21743961811521264320e-3, -0.16431810653676389022e-3, 0.84418223983852743293e-4,
   -0.26190838401581408670e-4, 0.36899182659531622704e-5]

/-- The logarithm of the gamma function at `a > 0`. -/
def logGamma (a : Float) : Float :=
  let series := (lanczosCoefficients.foldl
    (fun (acc : Float × Float) c => (acc.1 + c / acc.2, acc.2 + 1))
    (0.99999999999999709182, a + 1)).1
  let t := a + lanczosShift + 0.5
  (a + 0.5) * Float.log t - t + Float.log (2.5066282746310005 * series / a)

/-- The logarithm of `xᵃ e⁻ˣ / Γ(a)`. -/
def logFactor (a x : Float) : Float := a * Float.log x - x - logGamma a

/-- Below this logarithm the factor is taken as zero. -/
def logFactorFloor : Float := -709.78271289338399

def argumentFloor : Float := 1.1102230246251565e-15

/-- Relative size of the term at which a series or fraction is cut. -/
def seriesTolerance : Float := 1e-15

/-- `1 + x/(a+1) + x²/((a+1)(a+2)) + …`, from the term `term` with divisor `r` on. -/
def lowerSeries (x : Float) : Nat → Float → Float → Float → Float
  | 0, _, _, sum => sum
  | fuel + 1, r, term, sum =>
    let r := r + 1
    let term := term * (x / r)
    let sum := sum + term
    if term / sum ≤ seriesTolerance then sum else lowerSeries x fuel r term sum

/-- Two consecutive convergents of the continued fraction, and the counters of its next step. -/
structure Convergents where
  /-- Numerator and denominator before the last. -/
  earlier : Float × Float
  /-- The last numerator and denominator. -/
  latest : Float × Float
  y : Float
  z : Float
  step : Float

/-- Steps of the continued fraction until two convergents agree; `value` is the last one. -/
def upperFraction : Nat → Convergents → Float → Float
  | 0, _, value => value
  | fuel + 1, c, value =>
    let y := c.y + 1
    let z := c.z + 2
    let step := c.step + 1
    let yc := y * step
    let p := c.latest.1 * z - c.earlier.1 * yc
    let q := c.latest.2 * z - c.earlier.2 * yc
    -- Both convergents are scaled down together, which leaves their quotients.
    let big := 4503599627370496.0 < p.abs
    let shrink (v : Float × Float) : Float × Float :=
      if big then (v.1 * 2.22044604925031308085e-16, v.2 * 2.22044604925031308085e-16) else v
    let next : Convergents := ⟨shrink c.latest, shrink (p, q), y, z, step⟩
    if q == 0 then upperFraction fuel next value
    else
      let refined := p / q
      if ((value - refined) / refined).abs ≤ seriesTolerance then refined
      else upperFraction fuel next refined

/-- Steps after which a series or fraction is cut in any case. -/
def stepLimit : Nat := 1000000

/-- The value of the continued fraction of `Q(a, x)` over its factor. -/
def upperRatio (a x : Float) : Float :=
  let y := 1 - a
  let z := x + y + 1
  upperFraction stepLimit ⟨(1, x), (x + 1, z * x), y, z, 0⟩ ((x + 1) / (z * x))

/-- `P(a, x)`: the mass that a gamma variable with shape `a` has below `x > 0`. -/
def gammaLower (a x : Float) : Float :=
  if x < argumentFloor then 0
  else
    let l := logFactor a x
    if l < logFactorFloor then if a < x then 1 else 0
    else if x ≤ 1 || x ≤ a then Float.exp l * lowerSeries x stepLimit a 1 1 / a
    else 1 - Float.exp l * upperRatio a x

/-- `Q(a, x)`: the mass that a gamma variable with shape `a` has above `x > 0`. -/
def gammaUpper (a x : Float) : Float :=
  if x < 1 || x ≤ a then 1 - gammaLower a x
  else
    let l := logFactor a x
    if l < logFactorFloor then if a < x then 0 else 1
    else Float.exp l * upperRatio a x

end FailureProbability.Special

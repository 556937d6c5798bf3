import FailureProbability.Decimal.Layout
import FailureProbability.Error

/-!
# The wording of errors

One function per kind of cause. Numbers inside a message are the shortest positional text that reads
back; numbers of a list keep their point. A message begins with the name of the estimator that the
error has passed, if it has passed one, and with the kind of the fault.

A fault of a stream or of JSON is worded by its kind alone: what the reader had to say about it is
not kept.
-/

namespace FailureProbability

open Decimal

def messageNumber (x : Float) : String := Layout.plain.text x

def messageList (xs : List Float) : String :=
  "[" ++ String.intercalate ", " (xs.map Layout.pointed.text) ++ "]"

/-- The message of a cause. Indices are written as they are, counted from zero. -/
def Invalid.text : Invalid Float → String
  | notFinite q v => q ++ " must be finite, got " ++ messageNumber v
  | notFinitePositive q v => q ++ " must be finite and > 0, got " ++ messageNumber v
  | emptyRange l u =>
    "uniform requires lower < upper, got [" ++ messageNumber l ++ ", " ++ messageNumber u ++ "]"
  | notCombined m => m ++ " is not a combined distribution"
  | derived m a b =>
    s!"{m} is derived from variables {a} and {b}; evaluate it through its operands"
  | pairOutside i j n => s!"correlation {i}-{j} refers to a variable outside 0..{n}"
  | selfCorrelation i => s!"self-correlation of variable {i}"
  | pairCoefficient i j r =>
    s!"correlation {i}-{j} must lie in [-1, 1], got " ++ messageNumber r
  | pairTwice i j => s!"correlation {i}-{j} specified twice"
  | fullChain i =>
    s!"variable {i} takes part in a chain of full correlations; use the robust Gaussian model"
  | contradictingSigns i j => s!"inconsistent signs in full correlations between {i} and {j}"
  | correlationSize c n => s!"correlation covers {c} variables, setup has {n}"
  | variableOutside i n => s!"variable {i} out of range 0..{n}"
  | operandOutside i n => s!"combined variable {i} refers to a variable outside 0..{n}"
  | correlatedFixed i m => s!"variable {i} ({m}) is not stochastic and cannot be correlated"
  | selfDependent i => s!"combined variable {i} depends on itself"
  | noActiveVariables => "no active stochastic variables"
  | coordinateCount e g => s!"expected {e} active coordinates, got {g}"
  | noSignChange xa za xb zb =>
    "no sign change between z(" ++ messageNumber xa ++ ")=" ++ messageNumber za ++ " and z(" ++
      messageNumber xb ++ ")=" ++ messageNumber zb
  | startPoint n u => s!"start point needs {n} finite coordinates, got " ++ messageList u
  | rayDirection n => s!"ray direction needs {n} coordinates and a non-zero length"
  | startSize g n => s!"start point has {g} coordinates, model has {n} active variables"
  | zeroCount q => q ++ " must be positive"
  | noTrials => "FORM trial_loops must be at least 1"
  | relaxation v => "FORM relaxation must lie in (0, 1], got " ++ messageNumber v
  | notPositive q v => q ++ " must be positive, got " ++ messageNumber v
  | notPositiveSilent q => q ++ " must be positive"
  | notFiniteSilent q => q ++ " must be finite"
  | sampleRange l g => s!"min_samples ({l}) exceeds max_samples ({g})"
  | densitySize o v => s!"offset has {o} entries, variance factor {v}"
  | offsetSize g n => s!"importance offset has {g} entries, model has {n} active variables"
  | balancedFraction v => "balanced_fraction must lie in (0, 0.5), got " ++ messageNumber v
  | varianceIncrease v => "variance_increase must exceed 1, got " ++ messageNumber v
  | gridBounds l u =>
    "integration bounds must satisfy min_u < max_u, got [" ++ messageNumber l ++ ", " ++
      messageNumber u ++ "]"
  | gridDimension m g => s!"numerical integration supports at most {m} variables, got {g}"
  | eventSize a b r => s!"event lengths differ: alpha {a} and {b}, rho {r}"
  | variableCoefficient r => "variable correlation " ++ messageNumber r ++ " outside [-1, 1]"
  | correlationLimits z l =>
    "need 0 <= rho_zero < rho_limit < 1, got " ++ messageNumber z ++ " and " ++ messageNumber l
  | unboundedEvents a b => "non-finite beta: " ++ messageNumber a ++ ", " ++ messageNumber b
  | eventCoefficient r => "correlation must lie in [-1, 1], got " ++ messageNumber r
  | noEvents => "no events to combine"
  | other t => t

def Breakdown.text : Breakdown Float → String
  | indefiniteCorrelation => "correlation matrix is not positive definite"
  | limitState z u => "limit state returned " ++ messageNumber z ++ " at u=" ++ messageList u
  | noFiniteSide i => s!"limit state not finite on either side of u[{i}]"
  | other t => t

def Malformed.text : Malformed → String
  | missing item => "missing " ++ item
  | unexpected item found => "expected " ++ item ++ ", got '" ++ found ++ "'"
  | unknownStatus code => s!"unknown convergence code {code}"
  | other t => t

def Fault.text : Fault Float → String
  | unreadable => "I/O error"
  | json => "JSON error"
  | invalid c => "Validation error: " ++ c.text
  | breakdown c => "Computation error: " ++ c.text
  | malformed line c => s!"Parse error at line {line}: " ++ c.text

/-- The wording of an error: the estimator, if it has passed one, and the fault. -/
def Error.message (e : Error Float) : String :=
  match e.estimator with
  | some name => name ++ ": " ++ e.fault.text
  | none => e.fault.text

end FailureProbability

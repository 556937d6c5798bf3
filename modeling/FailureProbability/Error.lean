/-!
# Errors

An error is a fault and, once an estimator has passed it on, the name of that estimator. Faults are
causes with the data that belong to them; their wording is in `Error.Message`. A name is given once:
an error that already has one keeps it (`Error.qualify`), so that a chain of estimators reports the
innermost one.

Causes carry numbers of the type that the algorithms run on, so that a statement about errors can be
made for any arithmetic, and the text only exists for doubles. Limit states belong to the caller:
what goes wrong inside one is passed on as text (`Breakdown.other`) and never looked into.

That a run does not converge or is told to stop is no error. See `Estimate`.
-/

namespace FailureProbability

/-- The causes for which settings, setups, models or calls are refused, each with the numbers and
names that its message tells. -/
inductive Invalid (α : Type) where
  /-- A quantity is infinite or undefined. -/
  | notFinite (quantity : String) (value : α)
  /-- A parameter of a marginal is not a finite number above zero. -/
  | notFinitePositive (quantity : String) (value : α)
  | emptyRange (lower upper : α)
  /-- A marginal asked to combine two values is not derived from others. -/
  | notCombined (marginal : String)
  /-- A marginal derived from two variables has no quantile transform of its own. -/
  | derived (marginal : String) (first second : Nat)
  | pairOutside (i j n : Nat)
  | selfCorrelation (i : Nat)
  | pairCoefficient (i j : Nat) (rho : α)
  | pairTwice (i j : Nat)
  /-- A full correlation whose dependent variable takes part in a second one. -/
  | fullChain (dependent : Nat)
  /-- Full correlations that contradict each other. -/
  | contradictingSigns (i j : Nat)
  | correlationSize (covered marginals : Nat)
  | variableOutside (i n : Nat)
  | operandOutside (i n : Nat)
  | correlatedFixed (i : Nat) (marginal : String)
  | selfDependent (i : Nat)
  | noActiveVariables
  | coordinateCount (expected given : Nat)
  | noSignChange (xa za xb zb : α)
  | startPoint (n : Nat) (given : List α)
  | rayDirection (n : Nat)
  | startSize (given active : Nat)
  | zeroCount (quantity : String)
  | noTrials
  | relaxation (value : α)
  /-- A setting that must be finite and above zero. -/
  | notPositive (quantity : String) (value : α)
  /-- A setting that must be finite and above zero, reported without its value. -/
  | notPositiveSilent (quantity : String)
  /-- A setting that must be finite, reported without its value. -/
  | notFiniteSilent (quantity : String)
  | sampleRange (least greatest : Nat)
  | densitySize (offset varianceFactor : Nat)
  | offsetSize (given active : Nat)
  | balancedFraction (value : α)
  | varianceIncrease (value : α)
  | gridBounds (lower upper : α)
  | gridDimension (most given : Nat)
  | eventSize (first second rho : Nat)
  | variableCoefficient (rho : α)
  | correlationLimits (zero limit : α)
  | unboundedEvents (first second : α)
  | eventCoefficient (rho : α)
  | noEvents
  | other (text : String)
  deriving Repr, BEq, DecidableEq

/-- What may go wrong in a computation whose settings were accepted. -/
inductive Breakdown (α : Type) where
  | indefiniteCorrelation
  | limitState (value : α) (point : List α)
  | noFiniteSide (coordinate : Nat)
  /-- A breakdown of the caller's own, such as one inside a limit state. -/
  | other (text : String)
  deriving Repr, BEq, DecidableEq

inductive Malformed where
  | missing (item : String)
  | unexpected (item found : String)
  | unknownStatus (code : Int)
  | other (text : String)
  deriving Repr, BEq, DecidableEq

inductive Fault (α : Type) where
  /-- A file or stream cannot be read. -/
  | unreadable
  /-- A text is not JSON, or not JSON of the expected form. -/
  | json
  | invalid (cause : Invalid α)
  | breakdown (cause : Breakdown α)
  | malformed (line : Nat) (cause : Malformed)
  deriving Repr, BEq, DecidableEq

/-- A fault, and the estimator that it passed through first. -/
structure Error (α : Type) where
  fault : Fault α
  estimator : Option String
  deriving Repr, BEq, DecidableEq

namespace Error

variable {α : Type}

def invalid (cause : Invalid α) : Error α := ⟨.invalid cause, none⟩

def breakdown (cause : Breakdown α) : Error α := ⟨.breakdown cause, none⟩

def malformed (line : Nat) (cause : Malformed) : Error α := ⟨.malformed line cause, none⟩

def json : Error α := ⟨.json, none⟩

def unreadable : Error α := ⟨.unreadable, none⟩

/-- The error with the name of the estimator that passes it on, unless it has one already. -/
def qualify (e : Error α) (estimator : String) : Error α :=
  match e.estimator with
  | some _ => e
  | none => { e with estimator := some estimator }

end Error

end FailureProbability

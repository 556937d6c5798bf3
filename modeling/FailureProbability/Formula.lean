import FailureProbability.Draw

/-!
# Formulas

A limit state may be given as a formula over the quantities of a draw. Operands are evaluated from
the left and the first error wins; of the two cases of a comparison only the chosen one is
evaluated.

Formulas are one way to write a limit state down and not the only one: estimators see a function of
draws, and no result about them looks at formulas. Evaluation is written for any monad, since a
formula of one variable is also a plain function, as root searches have it (`atParameter`).
-/

namespace FailureProbability

/-- What a formula may refer to. -/
inductive Quantity where
  /-- The variable of a function of one variable. -/
  | parameter
  /-- The physical value of a variable. -/
  | physical (i : Nat)
  /-- An active standard-normal coordinate. -/
  | coordinate (i : Nat)
  /-- The correlated coordinate of a variable. -/
  | correlated (i : Nat)
  deriving Repr, BEq, DecidableEq

/-- The formulas in which a limit state can be written. -/
inductive Formula (α : Type) where
  | const (value : α)
  | quantity (q : Quantity)
  | neg (a : Formula α)
  | abs (a : Formula α)
  | sqrt (a : Formula α)
  | exp (a : Formula α)
  | log (a : Formula α)
  | add (a b : Formula α)
  | sub (a b : Formula α)
  | mul (a b : Formula α)
  | div (a b : Formula α)
  | min (a b : Formula α)
  | max (a b : Formula α)
  | pow (a : Formula α) (exponent : Nat)
  /-- The third formula if the first is below the second, and otherwise the fourth. -/
  | ifLess (a b whenLess otherwise : Formula α)
  /-- A computation that always breaks down. -/
  | fail (text : String)
  deriving Repr

namespace Formula

variable {α : Type} [Scalar α]

/-- The sum of a list, from zero. -/
def sum (terms : List (Formula α)) : Formula α := terms.foldl add (const 0)

def product (factors : List (Formula α)) : Formula α := factors.foldl mul (const 1)

def power (x : α) (exponent : Nat) : α := (List.replicate exponent x).foldl (· * ·) 1

/-- The value of a formula, where `value` gives the quantities. -/
def evaluate {m : Type → Type} [Monad m] [MonadExceptOf (Error α) m] (value : Quantity → m α) :
    Formula α → m α
  | const v => pure v
  | quantity q => value q
  | neg a => do return -(← a.evaluate value)
  | abs a => do return Scalar.abs (← a.evaluate value)
  | sqrt a => do return Scalar.sqrt (← a.evaluate value)
  | exp a => do return Scalar.exp (← a.evaluate value)
  | log a => do return Scalar.log (← a.evaluate value)
  | add a b => do
    let x ← a.evaluate value
    let y ← b.evaluate value
    return x + y
  | sub a b => do
    let x ← a.evaluate value
    let y ← b.evaluate value
    return x - y
  | mul a b => do
    let x ← a.evaluate value
    let y ← b.evaluate value
    return x * y
  | div a b => do
    let x ← a.evaluate value
    let y ← b.evaluate value
    return x / y
  | min a b => do
    let x ← a.evaluate value
    let y ← b.evaluate value
    return Scalar.min x y
  | max a b => do
    let x ← a.evaluate value
    let y ← b.evaluate value
    return Scalar.max x y
  | pow a k => do return power (← a.evaluate value) k
  | ifLess a b whenLess otherwise => do
    let x ← a.evaluate value
    let y ← b.evaluate value
    if x < y then whenLess.evaluate value else otherwise.evaluate value
  | fail text => throw (Error.breakdown (.other text))

/-- The quantities of a draw; the variable of a function of one variable is none of them. -/
def ofDraw : Quantity → Draw.Action α α
  | .parameter => return 0
  | .physical i => Draw.value i
  | .coordinate i => do return (← get).u.getD i 0
  | .correlated i => do return (← get).correlated.getD i 0

def atDraw (f : Formula α) (d : Draw α) : Except (Error α) α := d.ask (f.evaluate ofDraw)

/-- The value of a formula as a function of one variable. -/
def atParameter (f : Formula α) (t : α) : Except (Error α) α :=
  f.evaluate fun
    | .parameter => .ok t
    | _ => .ok 0

end Formula

end FailureProbability

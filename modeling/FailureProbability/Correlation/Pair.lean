import FailureProbability.Error
import FailureProbability.Scalar

/-!
# Pairs of correlated variables

A pair names two variables and their coefficient. A coefficient of size one, up to a tolerance,
makes the second variable a copy of the first or of its negative: the pair is full. All others are
partial.

Signs have a type of their own, apart from numbers, so that what is said of copies does not depend
on any arithmetic: the product of signs is a group operation whatever the product of numbers does.

A list of pairs is checked from its first pair to its last, and the first fault is reported. A pair
repeats an earlier one if it names the same two variables in either order (`key`), and a coefficient
may exceed one by the tolerance.
-/

namespace FailureProbability

inductive Sign where
  | plus
  | minus
  deriving Repr, BEq, DecidableEq

namespace Sign

variable {α : Type} [Scalar α]

def mul : Sign → Sign → Sign
  | plus, s => s
  | minus, plus => minus
  | minus, minus => plus

instance : Mul Sign := ⟨mul⟩

theorem mul_comm (s t : Sign) : s * t = t * s := by cases s <;> cases t <;> rfl

theorem mul_assoc (s t r : Sign) : s * t * r = s * (t * r) := by
  cases s <;> cases t <;> cases r <;> rfl

@[simp] theorem plus_mul (s : Sign) : plus * s = s := rfl

@[simp] theorem mul_plus (s : Sign) : s * plus = s := by cases s <;> rfl

@[simp] theorem mul_self (s : Sign) : s * s = plus := by cases s <;> rfl

def apply : Sign → α → α
  | plus, x => x
  | minus, x => -x

/-- The sign of a number; zero counts as positive. -/
def of (x : α) : Sign := if x < 0 then minus else plus

def toNumber (s : Sign) : α := s.apply 1

end Sign

namespace Correlation

/-- The coefficient `rho` between the variables `i` and `j`. -/
structure Pair (α : Type) where
  i : Nat
  j : Nat
  rho : α
  deriving Repr, BEq

namespace Pair

variable {α : Type} [Scalar α]

def tolerance : α := 1e-10

/-- Is the second variable a copy of the first, up to its sign? -/
def isFull (p : Pair α) : Bool := decide (1 - tolerance ≤ Scalar.abs p.rho)

def sign (p : Pair α) : Sign := Sign.of p.rho

def key (p : Pair α) : Nat × Nat := (Nat.min p.i p.j, Nat.max p.i p.j)

def names (p : Pair α) (v : Nat) : Bool := p.i == v || p.j == v

def fulls (pairs : List (Pair α)) : List (Pair α) := pairs.filter isFull

def partials (pairs : List (Pair α)) : List (Pair α) := pairs.filter fun p => !p.isFull

/-- Accepts a pair of two different variables of `n`, with a coefficient of size at most one, that
was not given before. -/
def check (n : Nat) (earlier : List (Nat × Nat)) (p : Pair α) : Except (Error α) Unit :=
  if n ≤ p.i ∨ n ≤ p.j then .error (.invalid (.pairOutside p.i p.j n))
  else if p.i = p.j then .error (.invalid (.selfCorrelation p.i))
  else if Scalar.isFinite p.rho = false ∨ 1 + tolerance < Scalar.abs p.rho then
    .error (.invalid (.pairCoefficient p.i p.j p.rho))
  else if earlier.contains p.key then .error (.invalid (.pairTwice p.i p.j))
  else .ok ()

/-- Accepts a list of pairs whose keys do not repeat those given `earlier`. -/
def checkAll (n : Nat) : List (Nat × Nat) → List (Pair α) → Except (Error α) Unit
  | _, [] => .ok ()
  | earlier, p :: rest => do
    p.check n earlier
    checkAll n (p.key :: earlier) rest

end Pair

end Correlation

end FailureProbability

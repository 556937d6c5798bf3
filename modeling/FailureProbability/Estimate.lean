import FailureProbability.Direction

/-!
# Estimates

The outcome of an estimator: how it ended, the reliability index with its direction, the design
point in both spaces, and the work that it took. Not having converged and having been stopped are
outcomes and not errors. When one estimator follows another, their steps and evaluations add up and
their names are joined.

The parts of an estimate are not tied to each other here: the point need not be the design point of
the direction, and the physical values need not be those of the point. That every estimator ties
them is a result about estimators (`Proofs.Coherence`). The failure probability is not stored; it
follows from the index.

Counts of work have 64 binary digits and a sum of stages may lose a carry (`addCounts`). The counts
of a single stage are sums of whole numbers without a bound, as no run is long enough to reach one.
-/

namespace FailureProbability

inductive Status where
  | success
  /-- The budget was used up; the estimate is the best there is. -/
  | noConvergence
  /-- The monitor stopped it; the estimate is partial. -/
  | abortedByUser
  | notStarted
  deriving Repr, BEq, DecidableEq

namespace Status

def code : Status → Nat
  | success => 0
  | noConvergence => 1
  | abortedByUser => 2
  | notStarted => 3

def ofCode? : Int → Option Status
  | 0 => some success
  | 1 => some noConvergence
  | 2 => some abortedByUser
  | 3 => some notStarted
  | _ => none

theorem ofCode?_code (s : Status) : ofCode? s.code = some s := by cases s <;> rfl

end Status

structure Estimate (α : Type) where
  status : Status
  direction : Direction α
  /-- The physical values of all variables at the design point. -/
  x : List α
  u : List α
  /-- The estimators that contributed, joined by `+`. -/
  method : String
  steps : Nat
  evaluations : Nat
  deriving Repr, BEq

namespace Estimate

variable {α : Type}

def converged (e : Estimate α) : Bool := e.status == .success

/-- The sum of two counts of work. A count has 64 binary digits; a carry beyond them is lost. -/
def addCounts (a b : Nat) : Nat := (a + b) % Nat.pow 2 64

theorem addCounts_of_lt {a b : Nat} (h : a + b < Nat.pow 2 64) : addCounts a b = a + b :=
  Nat.mod_eq_of_lt h

theorem addCounts_comm (a b : Nat) : addCounts a b = addCounts b a := by
  rw [addCounts, addCounts, Nat.add_comm]

/-- The estimate of a stage that followed another one. -/
def afterStage (e earlier : Estimate α) : Estimate α :=
  { e with
    method := earlier.method ++ "+" ++ e.method
    steps := addCounts e.steps earlier.steps
    evaluations := addCounts e.evaluations earlier.evaluations }

variable [Scalar α]

def notStarted (method : String) (n : Nat) : Estimate α :=
  ⟨.notStarted, Direction.isotropic n 0, [], Coordinates.origin n, method, 0, 0⟩

def failureProbability (e : Estimate α) : α := e.direction.q

end Estimate

end FailureProbability

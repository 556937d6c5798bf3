import FailureProbability.Error

/-!
# Journals

While an estimator works it evaluates the limit state and reports its progress, and a monitor
answers each report with the order to go on or to stop. The journal keeps the number of evaluations
and the reports with their answers. Each report also notes how many evaluations came before it, so
that the journal shows whether anything was evaluated after an order to stop.

A monitor is a function of the reports so far, itself included in what it has answered to, so that
it may have a memory but takes nothing from outside. An order to stop is an answer and no exception:
it is for the estimator to come to an end.

The journal belongs to the computation and not to its result. It is there also when a run fails, and
a run that goes on from another journal than the empty one adds to it. Evaluations are counted when
there is a value; one that failed is not counted.
-/

namespace FailureProbability

structure Progress (α : Type) where
  step : Nat
  maxSteps : Nat
  beta : α
  convergence : α
  deriving Repr, BEq

inductive Control where
  | proceed
  | abort
  deriving Repr, BEq, DecidableEq

/-- A report with its answer, and the number of evaluations before it. -/
structure Report (α : Type) where
  progress : Progress α
  answer : Control
  evaluations : Nat
  deriving Repr, BEq

/-- A monitor answers a report in view of the earlier ones, the latest first. -/
abbrev Monitor (α : Type) := List (Report α) → Progress α → Control

/-- The monitor that never stops anything. -/
def Monitor.silent {α : Type} : Monitor α := fun _ _ => .proceed

def Monitor.abortAt {α : Type} (step : Nat) : Monitor α := fun _ p =>
  if step ≤ p.step then .abort else .proceed

structure Journal (α : Type) where
  /-- The number of evaluations that returned a value. -/
  evaluations : Nat
  reports : List (Report α)
  deriving Repr, BEq

namespace Journal

variable {α : Type}

def empty : Journal α := ⟨0, []⟩

def countEvaluation (j : Journal α) : Journal α := { j with evaluations := j.evaluations + 1 }

def record (j : Journal α) (p : Progress α) (answer : Control) : Journal α :=
  { j with reports := ⟨p, answer, j.evaluations⟩ :: j.reports }

end Journal

/-- A computation that may fail and that keeps a journal, also when it fails. -/
abbrev Run (α β : Type) := ExceptT (Error α) (StateM (Journal α)) β

namespace Run

variable {α β : Type}

/-- A plain result as a run in which nothing happens. -/
def ofExcept (r : Except (Error α) β) : Run α β := ExceptT.mk (pure r)

def evaluations : Run α Nat := return (← get).evaluations

def named (estimator : String) (r : Run α β) : Run α β :=
  tryCatch r fun e => throw (e.qualify estimator)

end Run

/-- A run that also carries a state of its own, which stays when the run fails. -/
abbrev RunWith (τ α β : Type) := ExceptT (Error α) (StateT τ (StateM (Journal α))) β

def RunWith.lift {τ α β : Type} (r : Run α β) : RunWith τ α β := ExceptT.mk (StateT.lift r.run)

end FailureProbability

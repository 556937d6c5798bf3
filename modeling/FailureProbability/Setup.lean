import FailureProbability.Correlation
import FailureProbability.Marginal

/-!
# Setups

A setup holds the variables of a problem and their correlation. A variable is active when it has a
standard-normal coordinate of its own: it is neither fixed nor combined from two others nor a copy
of another one. The estimators see active coordinates only.

A setup is accepted or refused as a whole. A variable is exchanged in place and all checks are made
again; if they refuse the new variable, the old one is put back and the active ones are found anew.
The correlation is never exchanged, and neither is the number of variables.

The order of the checks decides which fault is reported: operands and correlated variables first,
one variable after the other, then cycles, and last that there is an active variable at all. That
last check comes after the active variables were exchanged, so that a refused setup may hold a list
of them that is empty; what a refusal leaves behind is looked at in `Proofs.Setup.Exchange`.
-/

namespace FailureProbability

/-- The variables, their correlation and the indices of the active ones. -/
structure Setup (α : Type) where
  marginals : List (Marginal α)
  correlation : Correlation α
  active : List Nat
  deriving Repr, BEq

namespace Setup

variable {α : Type}

/-! ## Operands -/

/-- The operands of a variable, if it is a combined one. -/
def operandsOf (marginals : List (Marginal α)) (i : Nat) : Option (Nat × Nat) :=
  marginals[i]?.bind Marginal.operands

/-- Visits a variable and all that it is derived from. The path holds the variables that led here,
and the result those that are known not to depend on themselves. A variable on the path depends on
itself. -/
def visit (marginals : List (Marginal α)) (path done : List Nat) (i : Nat) :
    Nat → Except (Error α) (List Nat)
  | 0 => .error (.invalid (.selfDependent i))
  | fuel + 1 =>
    if path.contains i then .error (.invalid (.selfDependent i))
    -- Reached again on another path, which is no cycle.
    else if done.contains i then .ok done
    else
      match operandsOf marginals i with
      | none => .ok (i :: done)
      | some (a, b) => do
        let done ← visit marginals (i :: path) done a fuel
        let done ← visit marginals (i :: path) done b fuel
        return i :: done

/-- Accepts variables none of which depends on itself. A path has no variable twice, so that it is
never longer than the list. -/
def checkAcyclic (marginals : List (Marginal α)) : Except (Error α) Unit := do
  let _ ← (List.range marginals.length).foldlM
    (fun done i => visit marginals [] done i (marginals.length + 1)) []
  return ()

variable [Scalar α]

/-! ## Construction -/

/-- Accepts a variable whose operands exist and that is correlated only if it is stochastic. -/
def checkVariable (n : Nat) (correlation : Correlation α) (i : Nat) (m : Marginal α) :
    Except (Error α) Unit := do
  match m.operands with
  | some (a, b) => if n ≤ a ∨ n ≤ b then throw (.invalid (.operandOutside i n))
  | none => pure ()
  if m.isStochastic = false ∧ correlation.isCorrelated i = true then
    throw (.invalid (.correlatedFixed i m.name))

/-- Does the variable have a coordinate of its own? -/
def isActive (marginals : List (Marginal α)) (correlation : Correlation α) (i : Nat) : Bool :=
  (marginals[i]?.any Marginal.isStochastic) && !correlation.isFullyCorrelated i

/-- Accepts variables whose operands exist, of which only stochastic ones are correlated and none
depends on itself. -/
def check (marginals : List (Marginal α)) (correlation : Correlation α) :
    Except (Error α) Unit := do
  marginals.zipIdx.forM fun (m, i) => checkVariable marginals.length correlation i m
  checkAcyclic marginals

/-- The variables with a coordinate of their own, in ascending order. -/
def activeOf (marginals : List (Marginal α)) (correlation : Correlation α) : List Nat :=
  (List.range marginals.length).filter (isActive marginals correlation)

/-- What is done to a setup in place: an answer or an error, and what has become of the setup. -/
abbrev Edit (α β : Type) := ExceptT (Error α) (StateM (Setup α)) β

/-- Checks the variables and finds the active ones anew. These are exchanged before it is known that
there are any. -/
def refresh : Edit α Unit := do
  let s ← get
  liftExcept (check s.marginals s.correlation)
  set { s with active := activeOf s.marginals s.correlation }
  if (activeOf s.marginals s.correlation).isEmpty then throw (.invalid .noActiveVariables)

def withMarginal (s : Setup α) (i : Nat) (m : Marginal α) : Setup α :=
  { s with marginals := s.marginals.set i m }

/-- Exchanges the marginal of variable `i`. What is refused is put back, and the setup refreshed. -/
def exchange (i : Nat) (m : Marginal α) : Edit α Unit := do
  let s ← get
  match s.marginals[i]? with
  | none => throw (.invalid (.variableOutside i s.marginals.length))
  | some previous =>
    set (s.withMarginal i m)
    try refresh
    catch e =>
      modify (·.withMarginal i previous)
      refresh
      throw e

/-- The setup that an edit makes of another one. -/
def edited (s : Setup α) (edit : Edit α Unit) : Except (Error α) (Setup α) :=
  let (answer, t) := edit.run s
  answer.map fun _ => t

/-- The setup of variables and a correlation of the same size. -/
def new (marginals : List (Marginal α)) (correlation : Correlation α) :
    Except (Error α) (Setup α) :=
  if correlation.dimension ≠ marginals.length then
    .error (.invalid (.correlationSize correlation.dimension marginals.length))
  else edited ⟨marginals, correlation, []⟩ refresh

def independent (marginals : List (Marginal α)) : Except (Error α) (Setup α) :=
  new marginals (.identity marginals.length)

/-- The setup with another marginal for variable `i`. -/
def replace (s : Setup α) (i : Nat) (m : Marginal α) : Except (Error α) (Setup α) :=
  s.edited (exchange i m)

/-! ## Coordinates -/

def dimension (s : Setup α) : Nat := s.active.length

/-- The coordinates of all variables, where those that are not active are zero. -/
def spread (s : Setup α) (u : List α) : List α :=
  let given := s.active.zip u
  (List.range s.marginals.length).map fun i => (given.lookup i).getD 0

/-- The correlated coordinates of all variables at a point of the active ones. -/
def correlatedU (s : Setup α) (u : List α) : List α := s.correlation.correlate (s.spread u)

end Setup

end FailureProbability

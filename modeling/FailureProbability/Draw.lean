import FailureProbability.Setup

/-!
# Draws

A draw is a point of the active coordinates together with the physical values of the variables,
which are computed when they are asked for and then kept. A value depends on the point only; what is
kept saves work and shows in no answer.

The operands of a combined variable are computed when the variable is asked for, and theirs in turn,
to a depth that no accepted setup exceeds. If a variable depended on itself, which no accepted setup
allows, asking for it would be an error and no endless search.

A value that could not be computed is not kept, and is computed again when it is asked for again.
What was computed before the error stays.
-/

namespace FailureProbability

/-- A point, its correlated coordinates and the values known so far. -/
structure Draw (α : Type) where
  setup : Setup α
  u : List α
  correlated : List α
  known : List (Option α)
  deriving Repr, BEq

namespace Draw

variable {α : Type} [Scalar α]

/-- What can be asked of a draw: the answer, or an error, and the draw with what it knows now. -/
abbrev Action (α β : Type) := ExceptT (Error α) (StateM (Draw α)) β

def start (s : Setup α) (u : List α) : Draw α :=
  ⟨s, u, s.correlatedU u, List.replicate s.marginals.length none⟩

def new (s : Setup α) (u : List α) : Except (Error α) (Draw α) :=
  if u.length = s.dimension then .ok (start s u)
  else .error (.invalid (.coordinateCount s.dimension u.length))

def remember (d : Draw α) (i : Nat) (value : α) : Draw α :=
  { d with known := d.known.set i (some value) }

/-- The value of variable `i`, through at most so many levels of operands. -/
def valueWithin : Nat → Nat → Action α α
  | 0, i => throw (.invalid (.selfDependent i))
  | depth + 1, i => do
    let d ← get
    match d.setup.marginals[i]? with
    | none => throw (.invalid (.variableOutside i d.setup.marginals.length))
    | some m =>
      -- Several variables may share an operand, whose value is computed once.
      match d.known.getD i none with
      | some value => return value
      | none =>
        let value ←
          match m.operands with
          | some (a, b) => do
            let x ← valueWithin depth a
            let y ← valueWithin depth b
            liftExcept (m.fromPair x y)
          | none => liftExcept (m.fromNormal (d.correlated.getD i 0))
        modify (·.remember i value)
        return value
where
  /-- A plain result as an action that asks for nothing. -/
  liftExcept {β : Type} (r : Except (Error α) β) : Action α β := ExceptT.mk (pure r)

def value (i : Nat) : Action α α := do
  let d ← get
  valueWithin (d.setup.marginals.length + 1) i

def values : Action α (List α) := do
  let d ← get
  (List.range d.setup.marginals.length).mapM value

/-- Moves the draw to another point of the same dimension; what it knew is forgotten. -/
def move (u : List α) : Action α Unit := do
  let d ← get
  if u.length = d.u.length then set (start d.setup u)
  else throw (.invalid (.coordinateCount d.u.length u.length))

def ask {β : Type} (d : Draw α) (action : Action α β) : Except (Error α) β :=
  (action.run d).1

end Draw

end FailureProbability

import FailureProbability.Root.Search

/-!
# Marches

A march goes along an axis with a fixed step until the function changes its sign. Points at its
beginning whose value is zero do not count as a change: the sign is that of the first other value.
The first two neighbouring points of opposite sign are the crossing; a policy chooses the point that
is returned for it.

Behind a first value that is not zero, a zero is a crossing, and the cell in front of it is the one
that crosses. A value that is not a number has no sign of its own here; it does not compare as below
zero.

The last step of a march is cut to the end of the axis. A march that has met points is one state
(`March`), whatever met them: what it proposes next depends on that state alone, so that a march can
be continued from points that are known already.
-/

namespace FailureProbability

namespace Root

/-- The point that is returned for a crossing. -/
inductive March.Choice where
  | lastX
  | minAbsZ
  /-- A further point, where the line through both is zero. -/
  | interpolate
  /-- The point on the negative side. -/
  | firstNegative
  deriving Repr, BEq, DecidableEq

inductive March (α : Type) where
  /-- All values were zero so far; the last point, if there is one. -/
  | level (last : Option (Point α))
  /-- A sign is known and has not changed. -/
  | onSide (last : Point α)
  /-- The sign has changed between two neighbouring points. -/
  | crossed (before after last : Point α)
  deriving Repr, BEq

namespace March

variable {α : Type} [Scalar α]

def observe : March α → Point α → March α
  | level _, q => if q.z == 0 then level (some q) else onSide q
  | onSide p, q => if p.crosses q then crossed p q q else onSide q
  | crossed p q _, r => crossed p q r

def ofPoints (points : List (Point α)) : March α := points.foldl observe (level none)

def last? : March α → Option (Point α)
  | level last => last
  | onSide last => some last
  | crossed .. => none

def crossing? : March α → Option (Point α × Point α)
  | crossed p q _ => some (p, q)
  | _ => none

/-- The next abscissa of a march that has not crossed nor reached the end. -/
def proposal? (step maxX : α) (s : March α) : Option α :=
  s.last?.bind fun p =>
    if maxX ≤ p.x ∨ step ≤ 0 then none else some (Scalar.min (p.x + step) maxX)

/-- Where the line through two points is zero, unless they have the same value. -/
def interpolation? (p q : Point α) : Option α :=
  if q.z == p.z then none else some (p.x - p.z * (q.x - p.x) / (q.z - p.z))

def answer (choice : Choice) : March α → Option (Point α)
  | crossed p q r =>
    some <| match choice with
      | .lastX => q
      | .minAbsZ => p.nearer q
      | .interpolate => r
      | .firstNegative => if p.z < 0 then p else q
  | _ => none

/-- How a march ended: its last state, the values asked for, and whether the budget lasted. -/
structure Walk (α : Type) where
  state : March α
  evaluations : Nat
  converged : Bool
  deriving Repr, BEq

/-- Marches while there is a next abscissa and the budget lasts; `spent` values were asked for
before. -/
def advance {m : Type → Type} [Monad m] (step maxX : α) (f : α → m α) :
    Nat → Nat → March α → m (Walk α)
  | 0, spent, s => return ⟨s, spent, (s.proposal? step maxX).isNone⟩
  | budget + 1, spent, s =>
    match s.proposal? step maxX with
    | none => return ⟨s, spent, true⟩
    | some x => do
      let z ← f x
      advance step maxX f budget (spent + 1) (s.observe ⟨x, z⟩)

/-- The march with its further point, if the policy wants one and the budget allows it. -/
def interpolate {m : Type → Type} [Monad m] (budget : Nat) (w : Walk α) (f : α → m α) :
    m (Walk α) :=
  match w.state.crossing?.bind fun (p, q) => interpolation? p q with
  | none => return w
  | some x =>
    if budget ≤ w.evaluations then return { w with converged := false }
    else do
      let z ← f x
      return ⟨w.state.observe ⟨x, z⟩, w.evaluations + 1, w.converged⟩

/-- The root of the first crossing after the points already met. -/
def solve {m : Type → Type} [Monad m] (choice : Choice) (step maxX : α) (budget : Nat)
    (s : March α) (f : α → m α) : m (Search α) := do
  let w ← advance step maxX f budget 0 s
  let w ← if choice = .interpolate then interpolate budget w f else pure w
  return ⟨w.state.answer choice, w.evaluations, w.converged⟩

end March

end Root

end FailureProbability

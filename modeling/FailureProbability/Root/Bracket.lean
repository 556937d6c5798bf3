import FailureProbability.Root.Search

/-!
# Brackets

A bracket holds two points between which a function changes its sign. A search narrows it: it
proposes an abscissa between the ends and takes the point found there as the newer end. The older
end is exchanged when the sign has changed; when it is retained, one of the methods lowers the value
that it counts with, so that the next secant reaches further.

The value that an end counts with may thus differ from the value of the function there. Signs and
roots are told by the latter and only the secant is drawn with the former; the answer is a point of
the function in any case.

A search ends when one end is a root, when the bracket is narrow enough, or when its last step was
short. The last two are different things: a short step says that the newer end has hardly moved, and
nothing of how far away the older one still is. A search that ends so is reported as converged like
any other (`isDone`).
-/

namespace FailureProbability

namespace Root

inductive Bracket.Method where
  /-- Where the line through the ends is zero. -/
  | regulaFalsi
  /-- The same, with a lowered value of a retained end. -/
  | andersonBjorck
  | bisection
  deriving Repr, BEq, DecidableEq

/-- Two ends, of which `b` is the newer one. -/
structure Bracket (α : Type) where
  a : Point α
  b : Point α
  /-- The value that the older end counts with. -/
  za : α
  /-- The distance of the last two newer ends, once there was a step. -/
  lastStep : Option α
  deriving Repr, BEq

namespace Bracket

variable {α : Type} [Scalar α]

def new (a b : Point α) : Except (Error α) (Bracket α) :=
  if a.crosses b then .ok ⟨a, b, a.z, none⟩
  else .error (.invalid (.noSignChange a.x a.z b.x b.z))

def observe (method : Method) (s : Bracket α) (c : Point α) : Bracket α :=
  let lastStep := some (Scalar.abs (c.x - s.b.x))
  -- A root is no crossing: the older end stays, and the search is done.
  if c.crosses s.b && !(c.z == 0) then ⟨s.b, c, s.b.z, lastStep⟩
  else if method == .andersonBjorck && !(c.z == 0) then
    let m := 1 - c.z / s.b.z
    ⟨s.a, c, s.za * (if 0 < m then m else 0.5), lastStep⟩
  else ⟨s.a, c, s.za, lastStep⟩

@[simp] theorem b_observe (method : Method) (s : Bracket α) (c : Point α) :
    (s.observe method c).b = c := by
  simp only [observe]
  split
  · rfl
  · split <;> rfl

/-- The older end stays or is the newer one of before. -/
theorem a_observe (method : Method) (s : Bracket α) (c : Point α) :
    (s.observe method c).a = s.a ∨ (s.observe method c).a = s.b := by
  simp only [observe]
  split
  · exact .inr rfl
  · split <;> exact .inl rfl

/-- A step is at most `bound`; a step that was not made is within an infinite bound only. -/
def stepWithin (bound : α) : Option α → Bool
  | some step => decide (step ≤ bound)
  | none => !Scalar.isFinite bound && decide (0 < bound)

/-- One end is a root, or the bracket or its last step is small enough. -/
def isDone (tolerance : α) (s : Bracket α) : Bool :=
  s.a.z == 0 || s.b.z == 0 || decide (Scalar.abs (s.b.x - s.a.x) ≤ tolerance) ||
    stepWithin (0.5 * tolerance) s.lastStep

def middle (s : Bracket α) : α := 0.5 * (s.a.x + s.b.x)

def proposal (method : Method) (s : Bracket α) : α :=
  match method with
  | .bisection => s.middle
  | _ =>
    let x := s.b.x - s.b.z * (s.b.x - s.a.x) / (s.b.z - s.za)
    if Scalar.isFinite x then x else s.middle

/-- The end nearer to a root; of two equal ones the newer. -/
def answer (s : Bracket α) : Point α := s.a.nearer s.b

theorem answer_eq_or (s : Bracket α) : s.answer = s.a ∨ s.answer = s.b := by
  simp only [answer, Point.nearer]
  split
  · exact .inl rfl
  · exact .inr rfl

/-- Narrows the bracket while it is not small enough and the budget lasts; `spent` values were
asked for before. -/
def narrow {m : Type → Type} [Monad m] (method : Method) (tolerance : α) (f : α → m α) :
    Nat → Nat → Bracket α → m (Search α)
  | 0, spent, s => return ⟨some s.answer, spent, s.isDone tolerance⟩
  | budget + 1, spent, s =>
    if s.isDone tolerance then return ⟨some s.answer, spent, true⟩
    else do
      let x := s.proposal method
      let z ← f x
      narrow method tolerance f budget (spent + 1) (s.observe method ⟨x, z⟩)

def solve {m : Type → Type} [Monad m] (method : Method) (tolerance : α) (budget : Nat)
    (s : Bracket α) (f : α → m α) : m (Search α) := narrow method tolerance f budget 0 s

end Bracket

end Root

end FailureProbability

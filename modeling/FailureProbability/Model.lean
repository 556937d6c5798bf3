import FailureProbability.Formula
import FailureProbability.Model.Journal

/-!
# Models

A model is what an estimator works on: a setup, a limit state, the number of points that are
evaluated together, and a monitor. Failure is a negative value of the limit state.

A limit state is a function of a draw. It has no memory and does not see how many points are
evaluated together, or which of them it is asked for first; it may fail, and it may return a number
that is not finite, which is an error of the estimator unless the estimator expects it. Points that
are evaluated together are evaluated here one after the other, in the order of the list and up to
the first error, and what is shared out among workers is left out.

The gradient evaluates all its points in one list and judges the values afterwards: it finds a value
by the place of its point in the list (`differences`), so that the order in which `stencil` lists
the points is part of the algorithm. It does without one of the two sides of a coordinate, and
without a value at the point itself it fails.
-/

namespace FailureProbability

/-- A limit state gives every draw a value or an error. -/
abbrev LimitState (α : Type) := Draw α → Except (Error α) α

structure Model (α : Type) where
  setup : Setup α
  limitState : LimitState α
  /-- The number of points that are evaluated together. -/
  threads : Nat
  monitor : Monitor α

/-- A value of the limit state and its derivatives. -/
structure Gradient (α : Type) where
  z : α
  slope : List α
  evaluations : Nat
  deriving Repr, BEq

namespace Model

variable {α : Type} [Scalar α]

def dimension (m : Model α) : Nat := m.setup.dimension

def draw (m : Model α) (u : List α) : Except (Error α) (Draw α) := Draw.new m.setup u

def x (m : Model α) (u : List α) : Except (Error α) (List α) := do
  let d ← m.draw u
  d.ask Draw.values

/-- The value of the limit state and the physical values at a draw. -/
def output (m : Model α) (d : Draw α) : Except (Error α) (α × List α) := do
  let z ← m.limitState d
  return (z, ← d.ask Draw.values)

/-- The value of the limit state at a point, finite or not. It counts as an evaluation once there
is a value. -/
def evaluate (m : Model α) (u : List α) : Run α α := do
  let d ← Run.ofExcept (m.draw u)
  let z ← Run.ofExcept (m.limitState d)
  modify Journal.countEvaluation
  return z

def checkFinite (u : List α) (z : α) : Except (Error α) α :=
  if Scalar.isFinite z then .ok z else .error (.breakdown (.limitState z u))

/-- The finite value of the limit state at a point. -/
def z (m : Model α) (u : List α) : Run α α := do
  let v ← m.evaluate u
  Run.ofExcept (checkFinite u v)

/-- The finite values at a list of points, in their order. -/
def zAll (m : Model α) (points : List (List α)) : Run α (List α) := points.mapM m.z

/-- The derivative from the values at a point and at its neighbours on both sides. A side whose
value is not finite is left out. -/
def derivative (du z above below : α) (coordinate : Nat) : Except (Error α) α :=
  match Scalar.isFinite above, Scalar.isFinite below with
  | true, true => .ok ((above - below) / (2 * du))
  | true, false => .ok ((above - z) / du)
  | false, true => .ok ((z - below) / du)
  | false, false => .error (.breakdown (.noFiniteSide coordinate))

/-- The point and, one coordinate after the other, its neighbours above and below, in one list. -/
def stencil (u : List α) (du : α) : List (List α) :=
  u :: (List.range u.length).flatMap fun i => [u.modify i (· + du), u.modify i (· - du)]

omit [Scalar α] in
/-- What is written in pairs is read at even and odd places. -/
theorem getElem?_flatMap_pair {ι β : Type} (f g : ι → β) (l : List ι) (i : Nat) :
    (l.flatMap fun a => [f a, g a])[2 * i]? = l[i]?.map f ∧
      (l.flatMap fun a => [f a, g a])[2 * i + 1]? = l[i]?.map g := by
  induction l generalizing i with
  | nil => exact ⟨rfl, rfl⟩
  | cons a l ih =>
    cases i with
    | zero => exact ⟨rfl, rfl⟩
    | succ i => exact ih i

/-- One point, and two for each coordinate. -/
@[simp] theorem length_stencil (u : List α) (du : α) : (stencil u du).length = 2 * u.length + 1 := by
  simp [stencil, List.length_flatMap, List.map_const', Nat.mul_comm]

/-- The neighbours in coordinate `i` stand at the places where their values are looked for. -/
theorem getElem?_stencil (u : List α) (du : α) {i : Nat} (hi : i < u.length) :
    (stencil u du)[1 + 2 * i]? = some (u.modify i (· + du)) ∧
      (stencil u du)[2 + 2 * i]? = some (u.modify i (· - du)) := by
  obtain ⟨habove, hbelow⟩ := getElem?_flatMap_pair (fun i => u.modify i (· + du))
    (fun i => u.modify i (· - du)) (List.range u.length) i
  rw [List.getElem?_range hi] at habove hbelow
  rw [show 1 + 2 * i = 2 * i + 1 by omega, show 2 + 2 * i = 2 * i + 1 + 1 by omega]
  exact ⟨habove, hbelow⟩

/-- The gradient by differences of step `du`, from the values at the points of a stencil. A value is
found again by the place of its point: that of the point itself is the first, and those of
coordinate `i` stand at `1 + 2 * i` and `2 + 2 * i`. -/
def differences (u : List α) (du : α) (values : List α) : Except (Error α) (Gradient α) := do
  let center ← checkFinite u (values.getD 0 0)
  let slope ← (List.range u.length).mapM fun i =>
    derivative du center (values.getD (1 + 2 * i) 0) (values.getD (2 + 2 * i) 0) i
  return ⟨center, slope, (stencil u du).length⟩

/-- The gradient at a point. All points of the stencil are evaluated before any value is judged, so
that those that are not finite count as evaluations all the same. -/
def gradient (m : Model α) (u : List α) (du : α) : Run α (Gradient α) := do
  let values ← (stencil u du).mapM m.evaluate
  Run.ofExcept (differences u du values)

/-- Reports progress; the answer tells whether to stop. -/
def report (m : Model α) (p : Progress α) : Run α Bool := do
  let j ← get
  let answer := m.monitor j.reports p
  set (j.record p answer)
  return answer == .abort

end Model

end FailureProbability

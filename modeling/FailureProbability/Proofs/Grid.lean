import FailureProbability.Grid
import FailureProbability.Proofs.Form

/-!
# The work of integration on a grid

Every grid point is evaluated once, and the evaluations of a run are the increase of the counter.

Masses are left out here, and with them all arithmetic. A run may fail at any point, or be stopped
between two slices by a monitor without a memory; what it has evaluated by then is what it counts.
That every point comes up just once is shown with the masses (`Proofs.Grid.Partition`).
-/

namespace FailureProbability.Grid

variable {α : Type} [Scalar α]

/-- A recursion over the axes does the same from every journal, or fails there. -/
theorem meets_integrate (m : Model α) (cells : List (Cell α)) (levels : Nat) (u : List α)
    (mass : α) (t : Tally α) :
    Runs.Meets True (integrate m cells levels u mass t) fun _ _ => True := by
  induction levels generalizing u mass t with
  | zero =>
    unfold integrate
    refine Runs.meets_bind (m.meets_z u (.inr trivial)) fun z _ _ => ?_
    exact Runs.meets_pure trivial
  | succ levels ih =>
    unfold integrate
    exact (Runs.contract (Run α) True).foldlM (I := fun _ => True) trivial fun t _ c _ => ih _ _ _

/-- The slices charge what their points do, and fail only where a value does. -/
theorem meets_slices {m : Model α} (hm : m.monitor.IsStateless) (cells rest : List (Cell α))
    (done : Nat) (t : Tally α) :
    Runs.Meets True (slices m cells rest done t) fun _ _ => True := by
  induction rest generalizing done t with
  | nil => exact Runs.meets_pure trivial
  | cons c rest ih =>
    unfold slices
    refine Runs.meets_bind (meets_integrate m cells _ _ _ _) fun part _ _ => ?_
    refine (Runs.contract (Run α) True).ite (fun _ => ?_) fun _ => ih _ _
    refine Runs.meets_bind (Model.meets_report hm _ (P := fun _ _ => True) fun _ => trivial)
      fun stop _ _ => ?_
    exact (Runs.contract (Run α) True).ite (fun _ => Runs.meets_pure trivial) fun _ => ih _ _

/-- What a run finds: its tally, how it ended, and the physical values at the design point. -/
def findings (c : Config α) (m : Model α) : Run α (Tally α × Status × List α) := do
  if maxDimension < m.dimension then throw (.invalid (.gridDimension maxDimension m.dimension))
  let (t, status) ← slices m c.cells c.cells 0 .empty
  let x ← Run.ofExcept (m.x (t.direction m.dimension).designPoint)
  return (t, status, x)

/-- The estimate is made of what was found and of the increase of the counter. -/
theorem estimate_eq (c : Config α) (m : Model α) :
    estimate c m = do
      let before ← Run.evaluations
      let b ← findings c m
      let after ← Run.evaluations
      let d := b.1.direction m.dimension
      return ⟨b.2.1, d, b.2.2, d.designPoint, name, b.1.count, after - before⟩ := by
  unfold estimate findings
  by_cases h : maxDimension < m.dimension
  · simp only [if_pos h]
    rfl
  · simp only [if_neg h, bind_assoc, pure_bind]

theorem meets_findings {m : Model α} (hm : m.monitor.IsStateless) (c : Config α) :
    Runs.Meets True (findings c m) fun _ _ => True := by
  unfold findings
  refine (Runs.contract (Run α) True).ite (fun _ => Runs.meets_throw _ trivial) fun _ => ?_
  refine Runs.meets_bind (meets_slices hm _ _ _ _) fun b _ _ => ?_
  refine Runs.meets_bind (Runs.meets_ofExcept (.inr trivial)) fun x _ _ => ?_
  exact Runs.meets_pure trivial

theorem meets_estimate {m : Model α} (hm : m.monitor.IsStateless) (c : Config α) :
    Runs.Meets True (estimate c m) (Estimate.Accounts name) := by
  rw [estimate_eq]
  exact Runs.meets_measured (meets_findings hm c) fun b k _ => ⟨rfl, rfl⟩

end FailureProbability.Grid

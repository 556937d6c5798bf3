import FailureProbability.Form
import FailureProbability.Proofs.Gradient

/-!
# The course of a trial

A trial of the first-order method goes from point to point and takes a gradient at each of them. It
ends where the gradient has no length, where it is told to stop, where it has converged, or after
the last point that it may visit (`Course`). The course tells the points and the ending, and nothing
of the work: what is counted follows from the number of points, whichever way the trial has ended.

A trial that has answered has one course (`course_of_exec_iterate`, `Course.unique`), and a course
tells what the trial answers if there are physical values at its ending (`exec_iterate_of_course`).
So all that is shown of trials is shown by induction on courses, and the loop itself is opened in
one place (`exec_iterate_succ`).

The order of the constructors is that of the tests: a gradient without length ends a trial before
anything is reported, and a trial that is told to stop at a point where it would have converged was
stopped. Nothing is assumed of the arithmetic. A residual that is not a number is not below its
tolerance, so that such a trial goes on.
-/

namespace FailureProbability.Form

variable {α : Type} [Scalar α]

/-! ## Endings -/

/-- How a trial ends, with the direction and the point that it has come to. -/
structure Ending (α : Type) where
  status : Status
  direction : Direction α
  u : List α

/-- The estimate that tells an ending. There is one wherever the point has physical values. -/
def Ending.estimate (b : Ending α) (m : Model α) (steps evaluations : Nat) :
    Except (Error α) (Estimate α) := do
  let x ← m.x b.u
  return ⟨b.status, b.direction, x, b.u, name, steps, evaluations⟩

theorem exec_finish (m : Model α) (b : Ending α) (steps evaluations : Nat) (j : Journal α) :
    (finish m b.status b.direction b.u steps evaluations).exec j =
      (b.estimate m steps evaluations, j) := by
  unfold finish Ending.estimate
  rw [Run.exec_bind, Run.exec_ofExcept]
  cases m.x b.u <;> rfl

/-- The ending after the last point. -/
def Trial.exhausted (t : Trial α) : Ending α :=
  ⟨.noConvergence, extrapolate t.visits t.last, (extrapolate t.visits t.last).designPoint⟩

/-! ## Points -/

/-- The gradient has no length, so that there is no tangent plane. -/
def IsFlat (g : Gradient α) : Prop := Coordinates.norm g.slope < gradientFloor

/-- The direction of the tangent plane at a point. -/
def plane (g : Gradient α) (u : List α) : Direction α := tangent g u (Coordinates.norm g.slope)

/-- Both residuals are within their tolerances. -/
def HasConverged (c : Config α) (g : Gradient α) (u : List α) : Prop :=
  zResidual g (Coordinates.norm g.slope) < c.epsZ ∧ betaResidual (plane g u).beta u < c.epsBeta

instance (g : Gradient α) : Decidable (IsFlat g) := inferInstanceAs (Decidable (_ < _))

instance (c : Config α) (g : Gradient α) (u : List α) : Decidable (HasConverged c g u) :=
  inferInstanceAs (Decidable (_ ∧ _))

/-- What is reported on a point, the last of so many. -/
def progressAt (c : Config α) (steps : Nat) (g : Gradient α) (u : List α) : Progress α :=
  ⟨steps, c.maxIterations, (plane g u).beta,
    Scalar.max (zResidual g (Coordinates.norm g.slope)) (betaResidual (plane g u).beta u)⟩

/-- How far a trial has come after another point. -/
def Trial.next (t : Trial α) (relaxation : α) (g : Gradient α) : Trial α :=
  ⟨relax relaxation t.u (plane g t.u), remember t.visits (t.u, (plane g t.u).beta),
    some (plane g t.u)⟩

/-- The journal after another point, where a monitor has answered the report on it. -/
def noted (m : Model α) (c : Config α) (steps : Nat) (g : Gradient α) (u : List α) (j : Journal α) :
    Journal α :=
  (j.spend (2 * m.dimension + 1)).record (progressAt c steps g u) (m.answer j (progressAt c steps g u))

@[simp] theorem evaluations_noted (m : Model α) (c : Config α) (steps : Nat) (g : Gradient α)
    (u : List α) (j : Journal α) :
    (noted m c steps g u j).evaluations = j.evaluations + (2 * m.dimension + 1) := rfl

/-! ## Courses -/

/-- A trial with a number of points left, after so many others, visits points until it ends. -/
inductive Course (m : Model α) (c : Config α) (relaxation : α) :
    Nat → Nat → Trial α → Journal α → List (List α) → Ending α → Journal α → Prop
  | exhausted {steps : Nat} {t : Trial α} {j : Journal α} :
      Course m c relaxation 0 steps t j [] t.exhausted j
  | flat {remaining steps : Nat} {t : Trial α} {j : Journal α} {g : Gradient α}
      (hg : m.gradientAt t.u c.du = .ok g) (hflat : IsFlat g) :
      Course m c relaxation (remaining + 1) steps t j [t.u]
        ⟨.noConvergence, withoutTangent t g.z, t.u⟩ (j.spend (2 * m.dimension + 1))
  | stopped {remaining steps : Nat} {t : Trial α} {j : Journal α} {g : Gradient α}
      (hg : m.gradientAt t.u c.du = .ok g) (hplane : ¬IsFlat g)
      (hanswer : m.answer j (progressAt c (steps + 1) g t.u) = .abort) :
      Course m c relaxation (remaining + 1) steps t j [t.u]
        ⟨.abortedByUser, plane g t.u, t.u⟩ (noted m c (steps + 1) g t.u j)
  | converged {remaining steps : Nat} {t : Trial α} {j : Journal α} {g : Gradient α}
      (hg : m.gradientAt t.u c.du = .ok g) (hplane : ¬IsFlat g)
      (hanswer : m.answer j (progressAt c (steps + 1) g t.u) = .proceed)
      (hconverged : HasConverged c g t.u) :
      Course m c relaxation (remaining + 1) steps t j [t.u]
        ⟨.success, plane g t.u, t.u⟩ (noted m c (steps + 1) g t.u j)
  | goes {remaining steps : Nat} {t : Trial α} {j j' : Journal α} {g : Gradient α}
      {us : List (List α)} {b : Ending α}
      (hg : m.gradientAt t.u c.du = .ok g) (hplane : ¬IsFlat g)
      (hanswer : m.answer j (progressAt c (steps + 1) g t.u) = .proceed)
      (hnot : ¬HasConverged c g t.u)
      (hrest : Course m c relaxation remaining (steps + 1) (t.next relaxation g)
        (noted m c (steps + 1) g t.u j) us b j') :
      Course m c relaxation (remaining + 1) steps t j (t.u :: us) b j'

variable {m : Model α} {c : Config α} {relaxation : α}

/-- A trial with points left takes the gradient at its next one, and then ends there or goes on. -/
theorem exec_iterate_succ {t : Trial α} {g : Gradient α} (hg : m.gradientAt t.u c.du = .ok g)
    (remaining steps evaluations : Nat) (j : Journal α) :
    (iterate m c relaxation (remaining + 1) steps evaluations t).exec j =
      if IsFlat g then
        ((⟨.noConvergence, withoutTangent t g.z, t.u⟩ : Ending α).estimate m (steps + 1)
          (evaluations + (2 * m.dimension + 1)), j.spend (2 * m.dimension + 1))
      else if m.answer j (progressAt c (steps + 1) g t.u) = .abort then
        ((⟨.abortedByUser, plane g t.u, t.u⟩ : Ending α).estimate m (steps + 1)
          (evaluations + (2 * m.dimension + 1)), noted m c (steps + 1) g t.u j)
      else if HasConverged c g t.u then
        ((⟨.success, plane g t.u, t.u⟩ : Ending α).estimate m (steps + 1)
          (evaluations + (2 * m.dimension + 1)), noted m c (steps + 1) g t.u j)
      else
        (iterate m c relaxation remaining (steps + 1) (evaluations + (2 * m.dimension + 1))
          (t.next relaxation g)).exec (noted m c (steps + 1) g t.u j) := by
  have hgradient := (m.computes_gradient t.u c.du g j _).mpr ⟨hg, rfl⟩
  rw [Model.length_of_gradientAt hg] at hgradient
  rw [iterate, Run.exec_bind_ok hgradient, Model.evaluations_of_gradientAt hg,
    Model.length_of_gradientAt hg]
  dsimp only
  -- The tests in their order: a gradient that is too flat, the monitor, the tolerances.
  by_cases hflat : Coordinates.norm g.slope < gradientFloor
  · have hending := exec_finish m ⟨.noConvergence, withoutTangent t g.z, t.u⟩ (steps + 1)
      (evaluations + (2 * m.dimension + 1)) (j.spend (2 * m.dimension + 1))
    rw [if_pos hflat, if_pos (show IsFlat g from hflat), hending]
  · rw [if_neg hflat, if_neg (show ¬IsFlat g from hflat), Run.exec_bind_ok (m.exec_report _ _)]
    show Run.exec (if (m.answer j (progressAt c (steps + 1) g t.u) == .abort) = true then _ else _)
      (noted m c (steps + 1) g t.u j) = _
    cases m.answer j (progressAt c (steps + 1) g t.u) with
    | abort =>
      rw [if_pos (show (Control.abort == .abort) = true from rfl), if_pos rfl]
      exact exec_finish m ⟨.abortedByUser, plane g t.u, t.u⟩ _ _ _
    | proceed =>
      rw [if_neg (show ¬(Control.proceed == .abort) = true by decide),
        if_neg (show ¬Control.proceed = .abort by decide)]
      by_cases hconverged : HasConverged c g t.u
      · rw [if_pos hconverged]
        exact (congrArg (Run.exec · _) (if_pos hconverged)).trans
          (exec_finish m ⟨.success, plane g t.u, t.u⟩ _ _ _)
      · rw [if_neg hconverged]
        exact congrArg (Run.exec · _) (if_neg hconverged)

/-- What a course tells of its trial: the answer, and the journal after it. -/
theorem exec_iterate_of_course {remaining steps : Nat} {t : Trial α} {j j' : Journal α}
    {us : List (List α)} {b : Ending α} (h : Course m c relaxation remaining steps t j us b j')
    (evaluations : Nat) :
    (iterate m c relaxation remaining steps evaluations t).exec j =
      (b.estimate m (steps + us.length) (evaluations + (2 * m.dimension + 1) * us.length), j') := by
  induction h generalizing evaluations with
  | @exhausted steps t j =>
    rw [List.length_nil, Nat.mul_zero]
    exact exec_finish m t.exhausted steps evaluations j
  | flat hg hflat =>
    rw [exec_iterate_succ hg, if_pos hflat, List.length_singleton, Nat.mul_one]
  | stopped hg hplane hanswer =>
    rw [exec_iterate_succ hg, if_neg hplane, if_pos hanswer, List.length_singleton, Nat.mul_one]
  | converged hg hplane hanswer hconverged =>
    rw [exec_iterate_succ hg, if_neg hplane, hanswer, if_neg (by decide), if_pos hconverged,
      List.length_singleton, Nat.mul_one]
  | @goes remaining steps t j j' g us b hg hplane hanswer hnot hrest ih =>
    have hsteps : steps + 1 + us.length = steps + (us.length + 1) := by omega
    have hcount : evaluations + (2 * m.dimension + 1) + (2 * m.dimension + 1) * us.length =
        evaluations + (2 * m.dimension + 1) * (us.length + 1) := by ring
    rw [exec_iterate_succ hg, if_neg hplane, hanswer, if_neg (by decide), if_neg hnot, ih,
      List.length_cons, hsteps, hcount]

/-- At a point with a gradient a trial has a course if it has one from the next point on. -/
theorem exists_course_of_rest {remaining steps : Nat} {t : Trial α} {j : Journal α} {g : Gradient α}
    (hg : m.gradientAt t.u c.du = .ok g)
    (hrest : ¬IsFlat g → m.answer j (progressAt c (steps + 1) g t.u) = .proceed →
      ¬HasConverged c g t.u → ∃ us b j', Course m c relaxation remaining (steps + 1)
        (t.next relaxation g) (noted m c (steps + 1) g t.u j) us b j') :
    ∃ us b j', Course m c relaxation (remaining + 1) steps t j us b j' := by
  by_cases hflat : IsFlat g
  · exact ⟨_, _, _, .flat hg hflat⟩
  · cases hanswer : m.answer j (progressAt c (steps + 1) g t.u) with
    | abort => exact ⟨_, _, _, .stopped hg hflat hanswer⟩
    | proceed =>
      by_cases hconverged : HasConverged c g t.u
      · exact ⟨_, _, _, .converged hg hflat hanswer hconverged⟩
      · obtain ⟨us, b, j', hcourse⟩ := hrest hflat hanswer hconverged
        exact ⟨_, b, j', .goes hg hflat hanswer hconverged hcourse⟩

/-- A trial that has a gradient wherever it goes has a course. -/
theorem exists_course {P : List α → Prop} (hgradient : ∀ u, P u → ∃ g, m.gradientAt u c.du = .ok g)
    (hnext : ∀ (t : Trial α) g, P t.u → m.gradientAt t.u c.du = .ok g → P (t.next relaxation g).u)
    (remaining steps : Nat) {t : Trial α} (ht : P t.u) (j : Journal α) :
    ∃ us b j', Course m c relaxation remaining steps t j us b j' := by
  induction remaining generalizing steps t j with
  | zero => exact ⟨[], _, j, .exhausted⟩
  | succ remaining ih =>
    obtain ⟨g, hg⟩ := hgradient t.u ht
    exact exists_course_of_rest hg fun _ _ _ => ih (steps + 1) (hnext t g ht hg) _

/-- A trial that has answered has a course. -/
theorem course_of_exec_iterate {remaining steps evaluations : Nat} {t : Trial α} {e : Estimate α}
    {j j' : Journal α}
    (h : (iterate m c relaxation remaining steps evaluations t).exec j = (.ok e, j')) :
    ∃ us b, Course m c relaxation remaining steps t j us b j' := by
  have hexists : ∃ us b j₁, Course m c relaxation remaining steps t j us b j₁ := by
    induction remaining generalizing steps evaluations t j with
    | zero => exact ⟨[], _, j, .exhausted⟩
    | succ remaining ih =>
      obtain ⟨g, j₁, hrun, -⟩ := Run.exec_bind_eq_ok.mp h
      have hg := ((m.computes_gradient t.u c.du g j j₁).mp hrun).1
      refine exists_course_of_rest hg fun hplane hanswer hnot => ?_
      rw [exec_iterate_succ hg, if_neg hplane, hanswer, if_neg (by decide), if_neg hnot] at h
      exact ih h
  obtain ⟨us, b, j₁, hcourse⟩ := hexists
  obtain ⟨-, rfl⟩ := Prod.mk.inj (h.symm.trans (exec_iterate_of_course hcourse evaluations))
  exact ⟨us, b, hcourse⟩

/-- The first point of a course is the one at which the trial is. -/
theorem Course.eq_of_head? {remaining steps : Nat} {t : Trial α} {j j' : Journal α}
    {us : List (List α)} {b : Ending α} (h : Course m c relaxation remaining steps t j us b j')
    {u : List α} (hu : u ∈ us.head?) : u = t.u := by
  cases h with
  | exhausted => cases hu
  | flat => exact (Option.some.inj hu).symm
  | stopped => exact (Option.some.inj hu).symm
  | converged => exact (Option.some.inj hu).symm
  | goes => exact (Option.some.inj hu).symm

/-- A trial has one course: it takes the same gradients, and the guards of two steps exclude each
other. -/
theorem Course.unique {remaining steps : Nat} {t : Trial α} {j j₁ j₂ : Journal α}
    {us₁ us₂ : List (List α)} {b₁ b₂ : Ending α}
    (h₁ : Course m c relaxation remaining steps t j us₁ b₁ j₁)
    (h₂ : Course m c relaxation remaining steps t j us₂ b₂ j₂) : us₁ = us₂ ∧ b₁ = b₂ ∧ j₁ = j₂ := by
  induction h₁ generalizing us₂ b₂ j₂ with
  | exhausted =>
    cases h₂
    exact ⟨rfl, rfl, rfl⟩
  | flat => cases h₂ <;> grind
  | stopped => cases h₂ <;> grind
  | converged => cases h₂ <;> grind
  | goes => cases h₂ <;> grind

/-- A trial visits points of the model only. -/
theorem Course.length_of_mem {remaining steps : Nat} {t : Trial α} {j j' : Journal α}
    {us : List (List α)} {b : Ending α} (h : Course m c relaxation remaining steps t j us b j') :
    ∀ u ∈ us, u.length = m.dimension := by
  induction h with
  | exhausted => exact fun u hu => absurd hu List.not_mem_nil
  | flat hg => exact List.forall_mem_singleton.mpr (Model.length_of_gradientAt hg)
  | stopped hg => exact List.forall_mem_singleton.mpr (Model.length_of_gradientAt hg)
  | converged hg => exact List.forall_mem_singleton.mpr (Model.length_of_gradientAt hg)
  | goes hg _ _ _ _ ih => exact List.forall_mem_cons.mpr ⟨Model.length_of_gradientAt hg, ih⟩

/-! ## Work -/

theorem Course.length_le {remaining steps : Nat} {t : Trial α} {j j' : Journal α}
    {us : List (List α)} {b : Ending α} (h : Course m c relaxation remaining steps t j us b j') :
    us.length ≤ remaining := by
  induction h with
  | exhausted => exact le_rfl
  | flat => exact Nat.le_add_left 1 _
  | stopped => exact Nat.le_add_left 1 _
  | converged => exact Nat.le_add_left 1 _
  | goes _ _ _ _ _ ih => exact Nat.succ_le_succ ih

/-- Every point takes a gradient. -/
theorem Course.evaluations_eq {remaining steps : Nat} {t : Trial α} {j j' : Journal α}
    {us : List (List α)} {b : Ending α} (h : Course m c relaxation remaining steps t j us b j') :
    j'.evaluations = j.evaluations + (2 * m.dimension + 1) * us.length := by
  induction h with
  | exhausted => rfl
  | flat => rw [List.length_singleton, Nat.mul_one, Journal.evaluations_spend]
  | stopped => rw [List.length_singleton, Nat.mul_one, evaluations_noted]
  | converged => rw [List.length_singleton, Nat.mul_one, evaluations_noted]
  | goes _ _ _ _ _ ih =>
    rw [ih, evaluations_noted, List.length_cons]
    ring

end FailureProbability.Form
